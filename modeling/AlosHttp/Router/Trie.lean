import AlosHttp.Core.Utils
import AlosHttp.Data.Bitmap

/-! The route trie of `router.go`: nodes share the static text of their patterns and are split as
patterns are added. A trie stands for a set of routes; adding a pattern puts its route in and gives
its names to the parameter nodes that it goes through. -/
namespace AlosHttp.Routing
open List AlosHttp.Core Data

def star : UInt8 := 42

variable {H : Type}

structure CatchAll (H : Type) where
  catchName : Bytes
  handler : H

/-- The bytes `indices` are the first ones of the children's paths. A missing handler is nil;
wrapping by middleware changes none of the fields. -/
structure Node (H : Type) where
  path : Bytes := []
  children : List (Node H) := []
  handler : Option H := none
  paramChild : Option (Node H) := none
  catchAll : Option (CatchAll H) := none
  paramName : Bytes := []

def isStatic (c : UInt8) : Bool := c ≠ colon && c ≠ star

/-- The first child whose path starts with the byte, between the children around it. -/
def findChild (c : UInt8) : List (Node H) → Option (List (Node H) × Node H × List (Node H))
  | [] => none
  | child :: children =>
    if child.path.head? = some c then some ([], child, children)
    else (findChild c children).map fun r => (child :: r.1, r.2)

def commonBytes (a b : Bytes) (max : ℕ) : ℕ → ℕ → ℕ
  | 0, i => i
  | fuel + 1, i => if i < max ∧ a[i]? = b[i]? then commonBytes a b max fuel (i + 1) else i

def commonWords (a b : Bytes) (max : ℕ) : ℕ → ℕ → ℕ
  | 0, i => i
  | fuel + 1, i =>
    if i + 7 < max then
      let aw := leWord (a.drop i)
      let bw := leWord (b.drop i)
      if aw ≠ bw then i + trailingZeros (aw ^^^ bw) / 8 else commonWords a b max fuel (i + 8)
    else commonBytes a b max max i

def longestCommonPrefix (a b : Bytes) : ℕ :=
  let max := min a.length b.length
  commonWords a b max (max + 1) 0

/-- A child whose path goes on behind the common part becomes the only child of a new node. -/
def splitNode (child : Node H) (commonLen : ℕ) : Node H :=
  if commonLen < child.path.length then
    { path := child.path.take commonLen, children := [{ child with path := child.path.drop commonLen }] }
  else child

variable {c : UInt8} {a b s : Bytes} {n : Node H} {h : H}

theorem findChild_some {children before after : List (Node H)} {child : Node H}
    (h : findChild c children = some (before, child, after)) :
    children = before ++ child :: after ∧ child.path.head? = some c ∧ ∀ d ∈ before, d.path.head? ≠ some c := by
  induction children generalizing before with
  | nil => cases h
  | cons d children ih =>
    rw [findChild] at h
    split_ifs at h with hd
    · cases h
      exact ⟨rfl, hd, by simp⟩
    obtain ⟨⟨_, _, _⟩, hr, heq⟩ := Option.map_eq_some_iff.mp h
    cases heq
    obtain ⟨rfl, hhead, hbefore⟩ := ih hr
    refine ⟨rfl, hhead, fun e he => ?_⟩
    rcases mem_cons.mp he with rfl | he
    · exact hd
    · exact hbefore e he

theorem findChild_mem {children before after : List (Node H)} {child : Node H}
    (h : findChild c children = some (before, child, after)) : child ∈ children := by
  rw [(findChild_some h).1]
  exact mem_append_right _ mem_cons_self

theorem findChild_none {children : List (Node H)} (h : findChild c children = none) :
    ∀ d ∈ children, d.path.head? ≠ some c := by
  induction children with
  | nil => simp
  | cons d children ih =>
    rw [findChild] at h
    split_ifs at h with hd
    intro e he
    rcases mem_cons.mp he with rfl | he
    · exact hd
    · exact ih (Option.map_eq_none_iff.mp h) e he

def Agree (a b : Bytes) (k : ℕ) : Prop := k ≤ a.length ∧ ∀ i < k, a[i]? = b[i]?

theorem commonBytes_spec {max : ℕ} (hmax : max ≤ a.length) {fuel i : ℕ} (h : Agree a b i) :
    Agree a b (commonBytes a b max fuel i) ∧ i ≤ commonBytes a b max fuel i := by
  induction fuel generalizing i with
  | zero => exact ⟨h, le_rfl⟩
  | succ fuel ih =>
    rw [commonBytes]
    split_ifs with hi
    · have hnext : Agree a b (i + 1) := by
        refine ⟨by omega, fun j hj => ?_⟩
        by_cases hji : j = i
        · rw [hji]
          exact hi.2
        · exact h.2 j (by omega)
      obtain ⟨hagree, _⟩ := ih hnext
      exact ⟨hagree, by omega⟩
    · exact ⟨h, le_rfl⟩

theorem getElem?_eq_iff_byteAt {i k : ℕ} (ha : i + 8 ≤ a.length) (hb : i + 8 ≤ b.length) (hk : k < 8) :
    a[i + k]? = b[i + k]? ↔ byteAt (leWord (a.drop i)) k = byteAt (leWord (b.drop i)) k := by
  have hread {s : Bytes} (hs : i + 8 ≤ s.length) :
      ∃ c, s[i + k]? = some c ∧ byteAt (leWord (s.drop i)) k = c.toNat := by
    refine ⟨s[i + k], getElem?_eq_getElem (by omega), ?_⟩
    apply byteAt_leWord
    · rw [length_drop]
      omega
    · exact hk
    · rw [getElem?_drop, getElem?_eq_getElem (by omega)]
  obtain ⟨c, hc, hcw⟩ := hread ha
  obtain ⟨d, hd, hdw⟩ := hread hb
  rw [hc, hd, hcw, hdw, Option.some.injEq, UInt8.toNat_inj]

theorem commonWords_spec {max : ℕ} (hmax : max = min a.length b.length) {fuel i : ℕ} (h : Agree a b i) :
    Agree a b (commonWords a b max fuel i) ∧ i ≤ commonWords a b max fuel i := by
  induction fuel generalizing i with
  | zero => exact ⟨h, le_rfl⟩
  | succ fuel ih =>
    rw [commonWords]
    dsimp only
    split_ifs with hroom hword
    · have ha : i + 8 ≤ a.length := by omega
      have hb : i + 8 ≤ b.length := by omega
      have hne : leWord (a.drop i) ^^^ leWord (b.drop i) ≠ 0 := fun hzero => hword (BitVec.xor_eq_zero_iff.mp hzero)
      obtain ⟨_, -, hlow⟩ := trailingZeros_spec hne
      refine ⟨⟨by omega, fun j hj => ?_⟩, by omega⟩
      by_cases hji : j < i
      · exact h.2 j hji
      obtain ⟨k, rfl⟩ := Nat.exists_eq_add_of_le (not_lt.mp hji)
      rw [getElem?_eq_iff_byteAt ha hb (by omega), byteAt_eq_iff]
      exact fun r hr => hlow _ (by omega)
    · have ha : i + 8 ≤ a.length := by omega
      have hb : i + 8 ≤ b.length := by omega
      have hnext : Agree a b (i + 8) := by
        refine ⟨ha, fun j hj => ?_⟩
        by_cases hji : j < i
        · exact h.2 j hji
        obtain ⟨k, rfl⟩ := Nat.exists_eq_add_of_le (not_lt.mp hji)
        rw [getElem?_eq_iff_byteAt ha hb (by omega), Classical.not_not.mp hword]
      obtain ⟨hagree, _⟩ := ih hnext
      exact ⟨hagree, by omega⟩
    · exact commonBytes_spec (by omega) h

theorem agree_longestCommonPrefix (a b : Bytes) : Agree a b (longestCommonPrefix a b) :=
  (commonWords_spec rfl ⟨Nat.zero_le _, fun _ hi => absurd hi (Nat.not_lt_zero _)⟩).1

theorem longestCommonPrefix_take (a b : Bytes) :
    a.take (longestCommonPrefix a b) = b.take (longestCommonPrefix a b) ∧ longestCommonPrefix a b ≤ a.length := by
  obtain ⟨hle, hagree⟩ := agree_longestCommonPrefix a b
  refine ⟨?_, hle⟩
  apply ext_getElem?
  intro i
  rw [getElem?_take, getElem?_take]
  split_ifs with hi
  · exact hagree i hi
  · rfl

theorem longestCommonPrefix_pos (ha : a.head? = some c) (hb : b.head? = some c) : 0 < longestCommonPrefix a b := by
  have hfirst : a[0]? = b[0]? := by rw [← head?_eq_getElem?, ← head?_eq_getElem?, ha, hb]
  have hapos : 0 < a.length := length_pos_iff.mpr fun hnil => by rw [hnil] at ha; cases ha
  have hbpos : 0 < b.length := length_pos_iff.mpr fun hnil => by rw [hnil] at hb; cases hb
  unfold longestCommonPrefix
  rw [commonWords]
  dsimp only
  split_ifs with hroom hword
  · -- the first byte is zero in the difference, so the lowest bit set lies behind it
    have hne : leWord (a.drop 0) ^^^ leWord (b.drop 0) ≠ 0 := fun hz => hword (BitVec.xor_eq_zero_iff.mp hz)
    obtain ⟨-, hset, -⟩ := trailingZeros_spec hne
    have hbyte := (@getElem?_eq_iff_byteAt a b 0 0 (by omega) (by omega) (by omega)).mp hfirst
    rw [byteAt_eq_iff] at hbyte
    have hge : 8 ≤ trailingZeros (leWord (a.drop 0) ^^^ leWord (b.drop 0)) := by
      by_contra hlt
      have hclear := hbyte (trailingZeros (leWord (a.drop 0) ^^^ leWord (b.drop 0))) (by omega)
      rw [mul_zero, zero_add, hset] at hclear
      cases hclear
    omega
  · have height : Agree a b 8 := by
      refine ⟨by omega, fun j hj => ?_⟩
      have hj' := @getElem?_eq_iff_byteAt a b 0 j (by omega) (by omega) hj
      rw [zero_add] at hj'
      rw [hj', Classical.not_not.mp hword]
    have hle := (@commonWords_spec a b _ rfl (min a.length b.length) 8 height).2
    exact lt_of_lt_of_le (Nat.succ_pos 7) hle
  obtain ⟨m, hm⟩ : ∃ m, min a.length b.length = m + 1 := ⟨min a.length b.length - 1, by omega⟩
  rw [hm, commonBytes, if_pos ⟨Nat.succ_pos m, hfirst⟩]
  have hone : Agree a b 1 := by
    refine ⟨hapos, fun j hj => ?_⟩
    rw [Nat.lt_one_iff.mp hj]
    exact hfirst
  have hle := (@commonBytes_spec a b (m + 1) (by omega) m 1 hone).2
  exact lt_of_lt_of_le (Nat.succ_pos 0) hle

def addRoute (current : Node H) (remaining : Bytes) (handler : H) : Node H :=
  match remaining with
  | [] => { current with handler := some handler }
  | c :: rest =>
    if c = colon then
      let child := current.paramChild.getD {}
      { current with
        paramChild := some (addRoute { child with paramName := rest.takeWhile (· ≠ slash) }
          (rest.dropWhile (· ≠ slash)) handler) }
    else if c = star then { current with catchAll := some ⟨rest, handler⟩ }
    else
      match _found : findChild c current.children with
      | some (before, child, after) =>
        let commonLen := longestCommonPrefix child.path (c :: rest)
        let child := addRoute (splitNode child commonLen) ((c :: rest).drop commonLen) handler
        { current with children := before ++ child :: after }
      | none =>
        let child := addRoute { path := (c :: rest).takeWhile isStatic } ((c :: rest).dropWhile isStatic) handler
        { current with children := current.children ++ [child] }
termination_by remaining.length
decreasing_by
  · have hle := length_dropWhile_le (· ≠ slash) rest
    rw [length_cons]
    omega
  · have hpos := longestCommonPrefix_pos (findChild_some _found).2.1 (b := c :: rest) rfl
    rw [length_drop, length_cons]
    omega
  · have hle := length_dropWhile_le isStatic rest
    rw [dropWhile_cons_of_pos (by simp_all [isStatic]), length_cons]
    omega

/-- A pattern as the trie reads it: static bytes, parameters up to the next '/', and a catch-all
to the end. -/
inductive Tok
  | byte (c : UInt8)
  | param (name : Bytes)
  | catchAll (name : Bytes)
  deriving DecidableEq

def tokens (pattern : Bytes) : List Tok :=
  match pattern with
  | [] => []
  | c :: rest =>
    if c = colon then .param (rest.takeWhile (· ≠ slash)) :: tokens (rest.dropWhile (· ≠ slash))
    else if c = star then [.catchAll rest]
    else .byte c :: tokens rest
termination_by pattern.length
decreasing_by
  · have hle := length_dropWhile_le (· ≠ slash) rest
    rw [length_cons]
    omega
  · exact Nat.lt_succ_self _

inductive Holds : Node H → List Tok → H → Prop
  | here {n : Node H} {h : H} : n.handler = some h → Holds n [] h
  | child {n c : Node H} {ts : List Tok} {h : H} : c ∈ n.children → Holds c ts h → Holds n (c.path.map .byte ++ ts) h
  | param {n p : Node H} {ts : List Tok} {h : H} : n.paramChild = some p → Holds p ts h →
      Holds n (.param p.paramName :: ts) h
  | catchAll {n : Node H} {q : CatchAll H} : n.catchAll = some q → Holds n [.catchAll q.catchName] q.handler

/-- The children of each node start with different bytes, none of them special, and only children
have text of their own. -/
inductive Node.WF : Node H → Prop
  | mk {n : Node H} : (∀ c ∈ n.children, c.path ≠ [] ∧ ∀ b ∈ c.path, isStatic b = true) →
      (∀ c ∈ n.children, WF c) → n.children.Pairwise (fun a b => a.path.head? ≠ b.path.head?) →
      (∀ p, n.paramChild = some p → p.path = []) → (∀ p, n.paramChild = some p → WF p) → WF n

theorem Node.WF.child {c : Node H} (h : n.WF) (hc : c ∈ n.children) :
    c.path ≠ [] ∧ (∀ b ∈ c.path, isStatic b = true) ∧ c.WF := by
  cases h with
  | mk hpaths hchildren _ _ _ => exact ⟨(hpaths c hc).1, (hpaths c hc).2, hchildren c hc⟩

theorem Node.WF.heads (h : n.WF) : n.children.Pairwise (fun a b => a.path.head? ≠ b.path.head?) := by
  cases h with
  | mk _ _ hpair _ _ => exact hpair

theorem Node.WF.param {p : Node H} (h : n.WF) (hp : n.paramChild = some p) : p.WF := by
  cases h with
  | mk _ _ _ _ hparam => exact hparam p hp

theorem Node.WF.param_path {p : Node H} (h : n.WF) (hp : n.paramChild = some p) : p.path = [] := by
  cases h with
  | mk _ _ _ hpath _ => exact hpath p hp

theorem Node.WF.of_eq {m : Node H} (h : n.WF) (hc : m.children = n.children) (hp : m.paramChild = n.paramChild) :
    m.WF := by
  apply Node.WF.mk
  · rw [hc]
    exact fun c hc => ⟨(h.child hc).1, (h.child hc).2.1⟩
  · rw [hc]
    exact fun c hc => (h.child hc).2.2
  · rw [hc]
    exact h.heads
  · rw [hp]
    exact fun p hp => h.param_path hp
  rw [hp]
  exact fun p hp => h.param hp

theorem wf_bare (path : Bytes) : ({ path } : Node H).WF := by
  apply Node.WF.mk
  · simp
  · simp
  · exact List.Pairwise.nil
  · simp
  · simp

theorem paramChild_wf (hn : n.WF) (name : Bytes) : Node.WF { n.paramChild.getD {} with paramName := name } := by
  cases hp : n.paramChild with
  | none => exact (wf_bare []).of_eq rfl rfl
  | some p => exact (hn.param hp).of_eq rfl rfl

variable {ts : List Tok}

theorem not_holds_bare {path : Bytes} : ¬ Holds { path } ts h := by
  intro hh
  cases hh with
  | here hn => cases hn
  | child hc _ => cases hc
  | param hp _ => cases hp
  | catchAll hq => cases hq

theorem Holds.of_eq {m : Node H} (hh : Holds n ts h) (hc : m.children = n.children)
    (hp : m.paramChild = n.paramChild) (hq : m.catchAll = n.catchAll) (hn : m.handler = n.handler) : Holds m ts h := by
  cases hh with
  | here hn' => exact .here (hn.trans hn')
  | child hc' hh => exact .child (by rw [hc]; exact hc') hh
  | param hp' hh => exact .param (hp.trans hp') hh
  | catchAll hq' => exact .catchAll (hq.trans hq')

theorem splitNode_path (child : Node H) (k : ℕ) (hk : k ≤ child.path.length) :
    (splitNode child k).path = child.path.take k := by
  unfold splitNode
  split_ifs with h
  · rfl
  · rw [take_of_length_le (by omega)]

theorem splitNode_wf {child : Node H} (h : child.WF) (hstatic : ∀ b ∈ child.path, isStatic b = true) (k : ℕ) :
    (splitNode child k).WF := by
  unfold splitNode
  split_ifs with hk
  · apply Node.WF.mk
    · intro c hc
      obtain rfl := mem_singleton.mp hc
      refine ⟨fun hnil => ?_, fun b hb => hstatic b (mem_of_mem_drop hb)⟩
      have hlen := drop_eq_nil_iff.mp hnil
      omega
    · intro c hc
      obtain rfl := mem_singleton.mp hc
      exact h.of_eq rfl rfl
    · exact pairwise_singleton _ _
    · intro p hp
      cases hp
    intro p hp
    cases hp
  · exact h

theorem holds_splitNode {child : Node H} {k : ℕ} (hk : k ≤ child.path.length) :
    Holds (splitNode child k) ts h ↔ ∃ rest, ts = (child.path.drop k).map .byte ++ rest ∧ Holds child rest h := by
  unfold splitNode
  split_ifs with hlt
  · constructor
    · intro hh
      cases hh with
      | here hn => cases hn
      | @child _ c rest _ hc hh =>
        obtain rfl := mem_singleton.mp hc
        exact ⟨rest, rfl, hh.of_eq rfl rfl rfl rfl⟩
      | param hp _ => cases hp
      | catchAll hq => cases hq
    rintro ⟨rest, rfl, hh⟩
    exact .child (c := { child with path := child.path.drop k }) mem_cons_self (hh.of_eq rfl rfl rfl rfl)
  rw [drop_of_length_le (by omega)]
  constructor
  · exact fun hh => ⟨ts, rfl, hh⟩
  rintro ⟨rest, rfl, hh⟩
  exact hh

@[simp] theorem addRoute_path (n : Node H) (r : Bytes) (h : H) : (addRoute n r h).path = n.path := by
  fun_cases addRoute n r h <;> rfl

@[simp] theorem addRoute_paramName (n : Node H) (r : Bytes) (h : H) : (addRoute n r h).paramName = n.paramName := by
  fun_cases addRoute n r h <;> rfl

theorem tokens_nil : tokens [] = [] := by rw [tokens]

theorem tokens_colon (rest : Bytes) : tokens (colon :: rest) =
    .param (rest.takeWhile (· ≠ slash)) :: tokens (rest.dropWhile (· ≠ slash)) := by
  rw [tokens, if_pos rfl]

theorem tokens_star (rest : Bytes) : tokens (star :: rest) = [.catchAll rest] := by
  rw [tokens, if_neg (by decide), if_pos rfl]

theorem tokens_byte (hcolon : ¬ c = colon) (hstar : ¬ c = star) (rest : Bytes) :
    tokens (c :: rest) = .byte c :: tokens rest := by
  rw [tokens, if_neg hcolon, if_neg hstar]

theorem tokens_static (hs : ∀ c ∈ s, isStatic c = true) (rest : Bytes) :
    tokens (s ++ rest) = s.map .byte ++ tokens rest := by
  induction s with
  | nil => rfl
  | cons c s ih =>
    have hc : c ≠ colon ∧ c ≠ star := by simpa [isStatic] using hs c mem_cons_self
    rw [cons_append, tokens_byte hc.1 hc.2, ih fun d hd => hs d (mem_cons_of_mem c hd)]
    rfl

/-- The names of the first pattern for the parameters that both have. -/
def rename : List Tok → List Tok → List Tok
  | .byte a :: us, .byte b :: ts => if a = b then .byte b :: rename us ts else .byte b :: ts
  | .param a :: us, .param _ :: ts => .param a :: rename us ts
  | _, ts => ts

theorem rename_bytes (s : Bytes) (us ts : List Tok) :
    rename (s.map .byte ++ us) (s.map .byte ++ ts) = s.map .byte ++ rename us ts := by
  induction s with
  | nil => rfl
  | cons c s ih =>
    rw [map_cons, cons_append, cons_append, rename, if_pos rfl, ih]
    rfl

theorem rename_nil (ts : List Tok) : rename [] ts = ts := by
  rw [rename]
  · intro _ _ _ _ h
    cases h
  · intro _ _ _ _ h
    cases h

theorem rename_catchAll (name : Bytes) (us ts : List Tok) : rename (.catchAll name :: us) ts = ts := by
  rw [rename]
  · intro _ _ _ _ h
    cases h
  · intro _ _ _ _ h
    cases h

theorem rename_other (hne : s ≠ []) (hs : s.head? ≠ some c) (us ts : List Tok) :
    rename (.byte c :: us) (s.map .byte ++ ts) = s.map .byte ++ ts := by
  rcases s with _ | ⟨d, s⟩
  · exact absurd rfl hne
  have hd : c ≠ d := by
    rintro rfl
    exact hs rfl
  rw [map_cons, cons_append, rename, if_neg hd]

theorem rename_param_bytes (hne : s ≠ []) (name : Bytes) (us ts : List Tok) :
    rename (.param name :: us) (s.map .byte ++ ts) = s.map .byte ++ ts := by
  rcases s with _ | ⟨d, s⟩
  · exact absurd rfl hne
  rw [map_cons, cons_append, rename]
  · intro _ _ _ _ h
    cases h
  · intro _ _ _ _ _ h
    cases h

theorem isStatic_of_ne (hcolon : c ≠ colon) (hstar : c ≠ star) : isStatic c = true := by
  simp [isStatic, hcolon, hstar]

theorem takeWhile_static (r : Bytes) : ∀ b ∈ r.takeWhile isStatic, isStatic b = true := fun _ hb => mem_takeWhile_imp hb

theorem common_part {child : Node H} (hn : n.WF) (hc : child ∈ n.children) (r : Bytes) :
    let k := longestCommonPrefix child.path r
    k ≤ child.path.length ∧ tokens r = (child.path.take k).map .byte ++ tokens (r.drop k) := by
  obtain ⟨htake, hle⟩ := longestCommonPrefix_take child.path r
  refine ⟨hle, ?_⟩
  conv_lhs => rw [← take_append_drop (longestCommonPrefix child.path r) r]
  rw [← htake]
  exact tokens_static (fun b hb => (hn.child hc).2.1 b (mem_of_mem_take hb)) _

theorem addRoute_wf (hn : n.WF) (r : Bytes) (h : H) : (addRoute n r h).WF := by
  fun_induction addRoute n r h with
  | case1 n => exact hn.of_eq rfl rfl
  | case2 n rest child ih =>
    refine .mk (fun c hc => ⟨(hn.child hc).1, (hn.child hc).2.1⟩) (fun c hc => (hn.child hc).2.2) hn.heads ?_ ?_
    · rintro p ⟨⟩
      cases hp : n.paramChild with
      | none => simp [child, hp]
      | some p => simpa [child, hp] using hn.param_path hp
    rintro p ⟨⟩
    exact ih (paramChild_wf hn _)
  | case3 n rest _ => exact hn.of_eq rfl rfl
  | case4 n c rest hcolon hstar before child after hfound k child' ih =>
    obtain ⟨hchildren, hhead, -⟩ := findChild_some hfound
    have hmem := findChild_mem hfound
    obtain ⟨hne, hstatic, hwf⟩ := hn.child hmem
    have hk : k ≤ child.path.length := (common_part hn hmem (c :: rest)).1
    have hpos : 0 < k := longestCommonPrefix_pos hhead rfl
    have hpath : child'.path = child.path.take k := by rw [addRoute_path, splitNode_path _ _ hk]
    have hfirst : child'.path.head? = child.path.head? := by
      rw [hpath, head?_take, if_neg (by omega)]
    have hrest {d : Node H} (hd : d ∈ before ++ child' :: after) : d = child' ∨ d ∈ n.children := by
      rw [hchildren]
      simp only [mem_append, mem_cons] at hd ⊢
      tauto
    refine .mk (fun d hd => ?_) (fun d hd => ?_) ?_ (fun p hp => hn.param_path hp) fun p hp => hn.param hp
    · rcases hrest hd with rfl | hd
      · rw [hpath]
        refine ⟨fun hnil => ?_, fun b hb => hstatic b (mem_of_mem_take hb)⟩
        rw [take_eq_nil_iff] at hnil
        rcases hnil with h0 | h0
        · omega
        · exact hne h0
      · exact ⟨(hn.child hd).1, (hn.child hd).2.1⟩
    · rcases hrest hd with rfl | hd
      · exact ih (splitNode_wf hwf hstatic k)
      · exact (hn.child hd).2.2
    have hpair := hn.heads
    rw [hchildren] at hpair
    rw [pairwise_append, pairwise_cons] at hpair ⊢
    rw [hfirst]
    refine ⟨hpair.1, hpair.2.1, fun a ha b hb => ?_⟩
    rcases mem_cons.mp hb with rfl | hb
    · rw [hfirst]
      exact hpair.2.2 a ha child mem_cons_self
    · exact hpair.2.2 a ha b (mem_cons_of_mem _ hb)
  | case5 n c rest hcolon hstar hnone child' ih =>
    have hstatic := isStatic_of_ne hcolon hstar
    have hpath : child'.path = c :: rest.takeWhile isStatic := by
      rw [addRoute_path, takeWhile_cons_of_pos hstatic]
    refine .mk (fun d hd => ?_) (fun d hd => ?_) ?_ (fun p hp => hn.param_path hp) fun p hp => hn.param hp
    · rcases mem_append.mp hd with hd | hd
      · exact ⟨(hn.child hd).1, (hn.child hd).2.1⟩
      obtain rfl := mem_singleton.mp hd
      refine ⟨by rw [hpath]; exact cons_ne_nil _ _, ?_⟩
      rw [addRoute_path]
      exact takeWhile_static _
    · rcases mem_append.mp hd with hd | hd
      · exact (hn.child hd).2.2
      obtain rfl := mem_singleton.mp hd
      exact ih (wf_bare _)
    rw [pairwise_append]
    refine ⟨hn.heads, pairwise_singleton _ _, fun a ha b hb => ?_⟩
    obtain rfl := mem_singleton.mp hb
    rw [hpath]
    exact findChild_none hnone a ha

theorem found_route {child : Node H} (hn : n.WF) (hc : child ∈ n.children) (r : Bytes) :
    Holds (splitNode child (longestCommonPrefix child.path r)) ts h →
      ∃ old, Holds n old h ∧ (child.path.take (longestCommonPrefix child.path r)).map .byte ++ ts = old := by
  obtain ⟨hk, -⟩ := common_part hn hc r
  intro hh
  obtain ⟨_, rfl, hrest⟩ := (holds_splitNode hk).mp hh
  refine ⟨_, .child hc hrest, ?_⟩
  rw [← append_assoc, ← map_append, take_append_drop]

theorem Holds.of_addRoute (hn : n.WF) {r : Bytes} {h' : H} (hh : Holds (addRoute n r h) ts h') :
    ts = tokens r ∧ h' = h ∨ ∃ old, Holds n old h' ∧ ts = rename (tokens r) old := by
  fun_induction addRoute n r h generalizing ts
  case case1 n =>
    rw [tokens_nil]
    cases hh with
    | here hn' =>
      cases hn'
      exact .inl ⟨rfl, rfl⟩
    | child hc hh => exact .inr ⟨_, .child hc hh, (rename_nil _).symm⟩
    | param hp hh => exact .inr ⟨_, .param hp hh, (rename_nil _).symm⟩
    | catchAll hq => exact .inr ⟨_, .catchAll hq, (rename_nil _).symm⟩
  case case2 n rest child ih =>
    rw [tokens_colon]
    cases hh with
    | here hn' => exact .inr ⟨_, .here hn', rfl⟩
    | child hc hh => exact .inr ⟨_, .child hc hh, (rename_param_bytes (hn.child hc).1 _ _ _).symm⟩
    | @param _ p ts _ hp hh =>
      cases hp
      rw [addRoute_paramName]
      rcases ih (paramChild_wf hn _) hh with ⟨rfl, rfl⟩ | ⟨old, hold, rfl⟩
      · exact .inl ⟨rfl, rfl⟩
      cases hp : n.paramChild with
      | none =>
        refine absurd (hold.of_eq (m := { path := [] }) ?_ ?_ ?_ ?_) not_holds_bare <;> simp [child, hp]
      | some p =>
        refine .inr ⟨.param p.paramName :: old, .param hp (hold.of_eq ?_ ?_ ?_ ?_), rfl⟩ <;> simp [child, hp]
    | catchAll hq => exact .inr ⟨_, .catchAll hq, rfl⟩
  case case3 n rest _ =>
    rw [tokens_star]
    cases hh with
    | here hn' => exact .inr ⟨_, .here hn', rfl⟩
    | child hc hh => exact .inr ⟨_, .child hc hh, (rename_catchAll _ _ _).symm⟩
    | param hp hh => exact .inr ⟨_, .param hp hh, rfl⟩
    | catchAll hq =>
      cases hq
      exact .inl ⟨rfl, rfl⟩
  case case4 n c rest hcolon hstar before child after hfound k child' ih =>
    obtain ⟨hchildren, hhead, hbefore⟩ := findChild_some hfound
    have hmem := findChild_mem hfound
    obtain ⟨-, hstatic, hwf⟩ := hn.child hmem
    obtain ⟨hk, htokens⟩ := common_part hn hmem (c :: rest)
    have hpath : (Routing.addRoute (splitNode child k) ((c :: rest).drop k) h).path = child.path.take k := by
      rw [addRoute_path, splitNode_path _ _ hk]
    have hfirst := tokens_byte hcolon hstar rest
    cases hh with
    | here hn' =>
      refine .inr ⟨_, .here hn', ?_⟩
      rw [hfirst]
      rfl
    | @child _ d ts _ hd hh =>
      have hother (hd : d ∈ n.children) (hne : d.path.head? ≠ some c) :
          d.path.map .byte ++ ts = tokens (c :: rest) ∧ h' = h ∨
            ∃ old, Holds n old h' ∧ d.path.map .byte ++ ts = rename (tokens (c :: rest)) old := by
        refine .inr ⟨_, .child hd hh, ?_⟩
        rw [hfirst, rename_other (hn.child hd).1 hne]
      have hpair := hn.heads
      rw [hchildren, pairwise_append, pairwise_cons] at hpair
      rcases mem_append.mp hd with hd | hd
      · exact hother (by rw [hchildren]; exact mem_append_left _ hd) (hbefore d hd)
      rcases mem_cons.mp hd with rfl | hd
      · rw [hpath]
        rcases ih (splitNode_wf hwf hstatic k) hh with ⟨rfl, rfl⟩ | ⟨old, hold, rfl⟩
        · exact .inl ⟨htokens.symm, rfl⟩
        obtain ⟨_, hold', rfl⟩ := found_route hn hmem (c :: rest) hold
        refine .inr ⟨_, hold', ?_⟩
        rw [htokens, rename_bytes]
      refine hother (by rw [hchildren]; exact mem_append_right _ (mem_cons_of_mem _ hd)) ?_
      rw [← hhead]
      exact (hpair.2.1.1 d hd).symm
    | param hp hh =>
      refine .inr ⟨_, .param hp hh, ?_⟩
      rw [hfirst]
      rfl
    | catchAll hq =>
      refine .inr ⟨_, .catchAll hq, ?_⟩
      rw [hfirst]
      rfl
  case case5 n c rest hcolon hstar hnone child' ih =>
    have hfirst := tokens_byte hcolon hstar rest
    cases hh with
    | here hn' =>
      refine .inr ⟨_, .here hn', ?_⟩
      rw [hfirst]
      rfl
    | @child _ d ts _ hd hh =>
      rcases mem_append.mp hd with hd | hd
      · refine .inr ⟨_, .child hd hh, ?_⟩
        rw [hfirst, rename_other (hn.child hd).1 (findChild_none hnone d hd)]
      obtain rfl := mem_singleton.mp hd
      rcases ih (wf_bare _) hh with ⟨rfl, rfl⟩ | ⟨old, hold, -⟩
      · refine .inl ⟨?_, rfl⟩
        rw [addRoute_path, ← tokens_static (takeWhile_static _), takeWhile_append_dropWhile]
      · exact absurd hold not_holds_bare
    | param hp hh =>
      refine .inr ⟨_, .param hp hh, ?_⟩
      rw [hfirst]
      rfl
    | catchAll hq =>
      refine .inr ⟨_, .catchAll hq, ?_⟩
      rw [hfirst]
      rfl

theorem holds_addRoute (hn : n.WF) (r : Bytes) (h : H) : Holds (addRoute n r h) (tokens r) h := by
  fun_induction addRoute n r h with
  | case1 n =>
    rw [tokens_nil]
    exact .here rfl
  | case2 n rest child ih =>
    rw [tokens_colon]
    have hparam := Holds.param (n := { n with paramChild := some (addRoute
      { child with paramName := rest.takeWhile (· ≠ slash) } (rest.dropWhile (· ≠ slash)) h) }) rfl
        (ih (paramChild_wf hn _))
    rw [addRoute_paramName] at hparam
    exact hparam
  | case3 n rest _ =>
    rw [tokens_star]
    exact .catchAll (q := ⟨rest, h⟩) rfl
  | case4 n c rest hcolon hstar before child after hfound k child' ih =>
    have hmem := findChild_mem hfound
    obtain ⟨-, hstatic, hwf⟩ := hn.child hmem
    obtain ⟨hk, htokens⟩ := common_part hn hmem (c :: rest)
    rw [htokens, ← splitNode_path _ _ hk, ← addRoute_path (splitNode child k) ((c :: rest).drop k) h]
    exact .child (mem_append_right _ mem_cons_self) (ih (splitNode_wf hwf hstatic k))
  | case5 n c rest hcolon hstar hnone child' ih =>
    have hroute := ih (wf_bare _)
    have hsplit : tokens (c :: rest) = child'.path.map .byte ++ tokens ((c :: rest).dropWhile isStatic) := by
      rw [addRoute_path, ← tokens_static (takeWhile_static _), takeWhile_append_dropWhile]
    rw [hsplit]
    exact .child (mem_append_right _ mem_cons_self) hroute

def Tok.erase : Tok → Tok
  | .byte c => .byte c
  | .param _ => .param []
  | .catchAll _ => .catchAll []

theorem Holds.addRoute (hn : n.WF) {h₀ : H} (hh : Holds n ts h₀) (r : Bytes) (h : H) :
    ∃ ts' h', Holds (addRoute n r h) ts' h' ∧ ts'.map Tok.erase = ts.map Tok.erase := by
  fun_induction Routing.addRoute n r h generalizing ts
  case case1 n =>
    cases hh with
    | here _ => exact ⟨_, _, .here rfl, rfl⟩
    | child hc hh => exact ⟨_, _, .child hc hh, rfl⟩
    | param hp hh => exact ⟨_, _, .param hp hh, rfl⟩
    | catchAll hq => exact ⟨_, _, .catchAll hq, rfl⟩
  case case2 n rest child ih =>
    cases hh with
    | here hn' => exact ⟨_, _, .here hn', rfl⟩
    | child hc hh => exact ⟨_, _, .child hc hh, rfl⟩
    | @param _ p ts _ hp hh =>
      have hold : Holds { child with paramName := rest.takeWhile (· ≠ slash) } ts h₀ := by
        refine hh.of_eq ?_ ?_ ?_ ?_ <;> simp [child, hp]
      obtain ⟨ts', h', hnew, herase⟩ := ih (paramChild_wf hn _) hold
      refine ⟨_, h', .param rfl hnew, ?_⟩
      rw [map_cons, map_cons, herase]
      rfl
    | catchAll hq => exact ⟨_, _, .catchAll hq, rfl⟩
  case case3 n rest _ =>
    cases hh with
    | here hn' => exact ⟨_, _, .here hn', rfl⟩
    | child hc hh => exact ⟨_, _, .child hc hh, rfl⟩
    | param hp hh => exact ⟨_, _, .param hp hh, rfl⟩
    | catchAll _ => exact ⟨_, _, .catchAll (q := ⟨rest, h⟩) rfl, rfl⟩
  case case4 n c rest hcolon hstar before child after hfound k child' ih =>
    obtain ⟨hchildren, -, -⟩ := findChild_some hfound
    have hmem := findChild_mem hfound
    obtain ⟨-, hstatic, hwf⟩ := hn.child hmem
    obtain ⟨hk, -⟩ := common_part hn hmem (c :: rest)
    cases hh with
    | here hn' => exact ⟨_, _, .here hn', rfl⟩
    | @child _ d ts _ hd hh =>
      rw [hchildren] at hd
      rcases mem_append.mp hd with hd | hd
      · exact ⟨_, _, .child (mem_append_left _ hd) hh, rfl⟩
      rcases mem_cons.mp hd with rfl | hd
      · have hold := (holds_splitNode hk).mpr ⟨ts, rfl, hh⟩
        obtain ⟨ts', h', hnew, herase⟩ := ih (splitNode_wf hwf hstatic k) hold
        refine ⟨_, h', .child (mem_append_right _ mem_cons_self) hnew, ?_⟩
        rw [addRoute_path, splitNode_path _ _ hk, map_append, herase, ← map_append, ← append_assoc,
          ← map_append, take_append_drop]
      · exact ⟨_, _, .child (mem_append_right _ (mem_cons_of_mem _ hd)) hh, rfl⟩
    | param hp hh => exact ⟨_, _, .param hp hh, rfl⟩
    | catchAll hq => exact ⟨_, _, .catchAll hq, rfl⟩
  case case5 n c rest hcolon hstar hnone child' ih =>
    cases hh with
    | here hn' => exact ⟨_, _, .here hn', rfl⟩
    | child hc hh => exact ⟨_, _, .child (mem_append_left _ hc) hh, rfl⟩
    | param hp hh => exact ⟨_, _, .param hp hh, rfl⟩
    | catchAll hq => exact ⟨_, _, .catchAll hq, rfl⟩

theorem Node.WF.child_unique {c d : Node H} (hn : n.WF) (hc : c ∈ n.children) (hd : d ∈ n.children)
    (hhead : c.path.head? = d.path.head?) : c = d := by
  by_contra hne
  have hsymm : Std.Symm fun a b : Node H => a.path.head? ≠ b.path.head? := ⟨fun _ _ h => h.symm⟩
  exact hn.heads.forall hc hd hne hhead

/-- A trie has one route for each pattern, whatever the names. -/
theorem Holds.unique (hn : n.WF) (hh : Holds n ts h) {ts' : List Tok} {h' : H} (hh' : Holds n ts' h')
    (herase : ts.map Tok.erase = ts'.map Tok.erase) : ts = ts' ∧ h = h' := by
  induction hh generalizing ts' with
  | @here n h hhandler =>
    obtain rfl := map_eq_nil_iff.mp herase.symm
    generalize hnil : ([] : List Tok) = us at hh'
    cases hh' with
    | here hhandler' =>
      rw [hhandler] at hhandler'
      exact ⟨rfl, Option.some.inj hhandler'⟩
    | child hc _ =>
      obtain ⟨b, s, hcons⟩ := exists_cons_of_ne_nil (hn.child hc).1
      rw [hcons] at hnil
      cases hnil
    | param | catchAll => cases hnil
  | @child n c us h hc _ ih =>
    obtain ⟨hne, -, hwf⟩ := hn.child hc
    obtain ⟨b, s, hcons⟩ := exists_cons_of_ne_nil hne
    cases hh' with
    | here _ =>
      rw [hcons] at herase
      cases herase
    | @child _ d us' _ hd hrest =>
      obtain ⟨b', s', hcons'⟩ := exists_cons_of_ne_nil (hn.child hd).1
      have hfirst : b = b' := by
        rw [hcons, hcons'] at herase
        exact Tok.byte.inj (List.cons.inj herase).1
      obtain rfl : c = d := hn.child_unique hc hd (by rw [hcons, hcons', hfirst]; rfl)
      rw [map_append, map_append] at herase
      obtain ⟨rfl, rfl⟩ := ih hwf hrest (append_cancel_left herase)
      exact ⟨rfl, rfl⟩
    | param | catchAll =>
      rw [hcons] at herase
      cases herase
  | @param n p us h hp _ ih =>
    cases hh' with
    | here _ => cases herase
    | @child _ d _ _ hd _ =>
      obtain ⟨b', s', hcons'⟩ := exists_cons_of_ne_nil (hn.child hd).1
      rw [hcons'] at herase
      cases herase
    | param hp' hrest =>
      obtain rfl := Option.some.inj (hp.symm.trans hp')
      obtain ⟨rfl, rfl⟩ := ih (hn.param hp) hrest (List.cons.inj herase).2
      exact ⟨rfl, rfl⟩
    | catchAll _ => cases herase
  | @catchAll n q hq =>
    cases hh' with
    | here _ | param _ _ => cases herase
    | @child _ d _ _ hd _ =>
      obtain ⟨b', s', hcons'⟩ := exists_cons_of_ne_nil (hn.child hd).1
      rw [hcons'] at herase
      cases herase
    | catchAll hq' =>
      obtain rfl := Option.some.inj (hq.symm.trans hq')
      exact ⟨rfl, rfl⟩

end AlosHttp.Routing

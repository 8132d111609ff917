import AlosHttp.Router.Trie

/-! The searches of `router.go` in a route trie: the greedy walk with its remembered catch-all
(`findBuilt`, `findInTree`) and the search with backtracking (`routeBacktrack`). Both only find
routes that match; the second finds one whenever its budget covers the nodes that fit. -/
namespace AlosHttp.Routing
open List Option AlosHttp.Core
variable {H : Type}

abbrev Params := List (Bytes × Bytes)

def maxParams : ℕ := 8

def appendRouteParam (params : Params) (key value : Bytes) : Params :=
  if params.length < maxParams then params ++ [(key, value)] else params

def Node.staticChildFor (n : Node H) : Bytes → Option (Node H)
  | [] => none
  | c :: rest =>
    match findChild c n.children with
    | some (_, child, _) => if child.path.isPrefixOf (c :: rest) then some child else none
    | none => none

variable {remaining rest path : Bytes} {n p : Node H} {proper : Bool} {ts : List Tok}
    {ps params : Params} {found : H × Params} {pending : Option (CatchAll H × Bytes × Params)}

theorem Node.staticChildFor_some {child : Node H} (h : n.staticChildFor remaining = some child) :
    child ∈ n.children ∧ child.path <+: remaining := by
  rcases remaining with _ | ⟨c, rest⟩
  · cases h
  rw [staticChildFor] at h
  rcases hfind : findChild c n.children with _ | r
  · rw [hfind] at h
    cases h
  rw [hfind] at h
  dsimp only at h
  split_ifs at h with hpre
  cases h
  rw [(findChild_some hfind).1]
  exact ⟨mem_append_right _ mem_cons_self, isPrefixOf_iff_prefix.mp hpre⟩

theorem Node.staticChildFor_only {child : Node H} (hone : n.children = [child])
    (hpre : ¬ child.path.isPrefixOf remaining = true) : n.staticChildFor remaining = none := by
  rcases hchild : n.staticChildFor remaining with _ | other
  · rfl
  obtain ⟨hmem, hprefix⟩ := Node.staticChildFor_some hchild
  rw [hone] at hmem
  obtain rfl := mem_singleton.mp hmem
  exact absurd (List.isPrefixOf_iff_prefix.mpr hprefix) hpre

theorem Node.sizeOf_child {child : Node H} (h : child ∈ n.children) : sizeOf child < sizeOf n := by
  have hlt := sizeOf_lt_of_mem h
  cases n
  simp only [Node.mk.sizeOf_spec] at *
  omega

theorem Node.sizeOf_param (h : n.paramChild = some p) : sizeOf p < sizeOf n := by
  cases n
  subst h
  simp only [Node.mk.sizeOf_spec, Option.some.sizeOf_spec]
  omega

/-- The part of the path that a parameter takes, and what is left. -/
def segment (remaining : Bytes) : Bytes := remaining.takeWhile (· ≠ slash)
def afterSegment (remaining : Bytes) : Bytes := remaining.dropWhile (· ≠ slash)

/-- The loop of `findBuilt` and `findInTree`; `pending` is the last catch-all that was passed,
with what was left of the path and the parameters there. -/
def walk (current : Node H) (remaining : Bytes) (params : Params)
    (pending : Option (CatchAll H × Bytes × Params)) : Option (H × Params) :=
  match remaining with
  | [] => current.handler.map (·, params)
  | c :: rest =>
    let pending := match current.catchAll with
      | some q => some (q, c :: rest, params)
      | none => pending
    match _static : current.staticChildFor (c :: rest) with
    | some child => walk child ((c :: rest).drop child.path.length) params pending
    | none =>
      match _param : current.paramChild with
      | some p =>
        walk p (afterSegment (c :: rest)) (appendRouteParam params p.paramName (segment (c :: rest))) pending
      | none =>
        match current.catchAll with
        | some q => some (q.handler, appendRouteParam params q.catchName (c :: rest))
        | none => pending.map fun p => (p.1.handler, appendRouteParam p.2.2 p.1.catchName p.2.1)
termination_by sizeOf current
decreasing_by
  · exact Node.sizeOf_child (Node.staticChildFor_some _static).1
  · exact Node.sizeOf_param _param

def findBuilt (root : Node H) (path : Bytes) : Option (H × Params) :=
  if root.path.isPrefixOf path then walk root (path.drop root.path.length) [] none else none

def findInTree (root : Node H) (path : Bytes) : Option (H × Params) := walk root path [] none

def routerBacktrackBudget : ℕ := 64

/-- The result and what is left of the budget. The source goes on in its loop where the result
of the call is its own. -/
def routeBacktrack (n : Node H) (remaining : Bytes) (params : Params) (budget : ℕ) : Option (H × Params) × ℕ :=
  match remaining with
  | [] => (n.handler.map (·, params), budget)
  | c :: rest =>
    if budget = 0 then (none, 0)
    else
      let static := match _static : n.staticChildFor (c :: rest) with
        | some child => routeBacktrack child ((c :: rest).drop child.path.length) params (budget - 1)
        | none => (none, budget - 1)
      if static.1.isSome then static
      else
        let param := match _param : n.paramChild with
          | some p => routeBacktrack p (afterSegment (c :: rest))
              (appendRouteParam params p.paramName (segment (c :: rest))) static.2
          | none => (none, static.2)
        if param.1.isSome then param
        else (n.catchAll.map fun q => (q.handler, appendRouteParam params q.catchName (c :: rest)), param.2)
termination_by sizeOf n
decreasing_by
  · exact Node.sizeOf_child (Node.staticChildFor_some _static).1
  · exact Node.sizeOf_param _param

def findWithBacktracking (root : Node H) (path : Bytes) : Option (H × Params) :=
  if root.path.isPrefixOf path then
    (routeBacktrack root (path.drop root.path.length) [] routerBacktrackBudget).1
  else none

def hasStaticParamSiblings (n : Node H) : Bool := n.paramChild.isSome && !n.children.isEmpty ||
    n.children.attach.any (fun c => hasStaticParamSiblings c.1) ||
    match _param : n.paramChild with
    | some p => hasStaticParamSiblings p
    | none => false
termination_by sizeOf n
decreasing_by
  · exact Node.sizeOf_child c.2
  · exact Node.sizeOf_param _param

/-- A pattern fits a path and binds its names: each parameter takes what is there up to the next
'/', a catch-all the rest. Under `proper` something of the path is left for each of them. -/
inductive Captures (proper : Bool) : List Tok → Bytes → Params → Prop
  | nil : Captures proper [] [] []
  | byte {c : UInt8} {ts : List Tok} {rest : Bytes} {ps : Params} : Captures proper ts rest ps →
      Captures proper (.byte c :: ts) (c :: rest) ps
  | param {name remaining : Bytes} {ts : List Tok} {ps : Params} : (proper = true → remaining ≠ []) →
      Captures proper ts (afterSegment remaining) ps →
      Captures proper (.param name :: ts) remaining ((name, segment remaining) :: ps)
  | catchAll {name remaining : Bytes} : (proper = true → remaining ≠ []) →
      Captures proper [.catchAll name] remaining [(name, remaining)]

theorem Captures.bytes (h : Captures proper ts rest ps)
    (s : Bytes) : Captures proper (s.map .byte ++ ts) (s ++ rest) ps := by
  induction s with
  | nil => exact h
  | cons c s ih => exact .byte ih

theorem Captures.of_bytes {s : Bytes} : ∀ {ts : List Tok} {path : Bytes} {ps : Params},
    Captures proper (s.map .byte ++ ts) path ps → ∃ rest, path = s ++ rest ∧ Captures proper ts rest ps := by
  induction s with
  | nil => exact fun h => ⟨_, rfl, h⟩
  | cons c s ih =>
    intro ts path ps h
    cases h with
    | byte h =>
      obtain ⟨rest, rfl, hrest⟩ := ih h
      exact ⟨rest, rfl, hrest⟩

theorem Captures.loose (h : Captures proper ts path ps) : Captures false ts path ps := by
  induction h with
  | nil => exact .nil
  | byte _ ih => exact .byte ih
  | param _ _ ih => exact .param (fun h => by cases h) ih
  | catchAll _ => exact .catchAll fun h => by cases h

theorem Captures.erase {ts' : List Tok} (h : Captures proper ts path ps)
    (heq : ts'.map Tok.erase = ts.map Tok.erase) : ∃ ps', Captures proper ts' path ps' := by
  induction h generalizing ts' with
  | nil =>
    obtain rfl := map_eq_nil_iff.mp heq
    exact ⟨[], .nil⟩
  | @byte c ts rest ps _ ih =>
    obtain ⟨t, ts', rfl, ht, hts⟩ := map_eq_cons_iff.mp heq
    cases t with
    | byte d =>
      cases ht
      obtain ⟨ps', hps'⟩ := ih hts
      exact ⟨ps', .byte hps'⟩
    | param | catchAll => cases ht
  | @param name remaining ts ps hproper _ ih =>
    obtain ⟨t, ts', rfl, ht, hts⟩ := map_eq_cons_iff.mp heq
    cases t with
    | byte | catchAll => cases ht
    | param name' =>
      obtain ⟨ps', hps'⟩ := ih hts
      exact ⟨_, .param hproper hps'⟩
  | @catchAll name remaining hproper =>
    obtain ⟨t, ts', rfl, ht, hts⟩ := map_eq_cons_iff.mp heq
    obtain rfl := map_eq_nil_iff.mp hts
    cases t with
    | byte | param => cases ht
    | catchAll name' => exact ⟨_, .catchAll hproper⟩

def paramNames : List Tok → List Bytes
  | [] => []
  | .byte _ :: ts => paramNames ts
  | .param name :: ts => name :: paramNames ts
  | .catchAll name :: ts => name :: paramNames ts

theorem Captures.names (h : Captures proper ts path ps) : ps.map Prod.fst = paramNames ts := by
  induction h with
  | nil | catchAll => rfl
  | byte _ ih => exact ih
  | param _ _ ih => exact congrArg (_ :: ·) ih

def record (params more : Params) : Params := more.foldl (fun ps p => appendRouteParam ps p.1 p.2) params

theorem record_nil {more : Params} (h : more.length ≤ maxParams) : record [] more = more := by
  have hgen : ∀ params : Params, params.length + more.length ≤ maxParams → record params more = params ++ more := by
    clear h
    induction more with
    | nil => exact fun params _ => (append_nil params).symm
    | cons p more ih =>
      intro params hlen
      rw [length_cons] at hlen
      have hone : appendRouteParam params p.1 p.2 = params ++ [p] := if_pos (by omega)
      have hrest := ih (params ++ [p]) (by rw [length_append, length_singleton]; omega)
      rw [record, foldl_cons, hone, ← record, hrest, append_assoc]
      rfl
  exact hgen [] (by rw [length_nil]; omega)

/-- A route of the trie fits what is left of the path, and its parameters are recorded. -/
def Finds (n : Node H) (remaining : Bytes) (params : Params) (found : H × Params) : Prop :=
  ∃ ts ps, Holds n ts found.1 ∧ Captures true ts remaining ps ∧ found.2 = record params ps

theorem Finds.child {child : Node H} (h : n.staticChildFor remaining = some child)
    (hfinds : Finds child (remaining.drop child.path.length) params found) : Finds n remaining params found := by
  obtain ⟨hmem, _, rfl⟩ := Node.staticChildFor_some h
  rw [drop_left] at hfinds
  obtain ⟨_, ps, hholds, hcaps, hrec⟩ := hfinds
  exact ⟨_, ps, .child hmem hholds, hcaps.bytes child.path, hrec⟩

theorem Finds.param (hne : remaining ≠ []) (h : n.paramChild = some p)
    (hfinds : Finds p (afterSegment remaining) (appendRouteParam params p.paramName (segment remaining)) found) :
    Finds n remaining params found := by
  obtain ⟨_, _, hholds, hcaps, hrec⟩ := hfinds
  exact ⟨_, _, .param h hholds, .param (fun _ => hne) hcaps, hrec⟩

theorem Finds.catchAll {q : CatchAll H} (h : n.catchAll = some q) (hne : remaining ≠ [])
    (params : Params) : Finds n remaining params (q.handler, appendRouteParam params q.catchName remaining) :=
  ⟨_, _, .catchAll h, .catchAll fun _ => hne, rfl⟩

theorem Finds.here (h : n.handler.map (·, params) = some found) : Finds n [] params found := by
  obtain ⟨_, hn, rfl⟩ := map_eq_some_iff.mp h
  exact ⟨[], [], .here hn, .nil, rfl⟩

theorem walk_finds (h : walk n remaining params pending = some found) : Finds n remaining params found ∨
      pending.map (fun p => (p.1.handler, appendRouteParam p.2.2 p.1.catchName p.2.1)) = some found := by
  fun_induction walk n remaining params pending
  case case1 n params pending => exact .inl (.here h)
  case case2 n params pending c rest pending' child hstatic ih =>
    rcases ih h with hfinds | hpending
    · exact .inl (hfinds.child hstatic)
    rcases hq : n.catchAll with _ | q
    · simp only [pending', hq] at hpending
      exact .inr hpending
    simp only [pending', hq, map_some, Option.some.injEq] at hpending
    rw [← hpending]
    exact .inl (.catchAll hq (cons_ne_nil _ _) _)
  case case3 n params pending c rest pending' hstatic p hparam ih =>
    rcases ih h with hfinds | hpending
    · exact .inl (hfinds.param (cons_ne_nil _ _) hparam)
    rcases hq : n.catchAll with _ | q
    · simp only [pending', hq] at hpending
      exact .inr hpending
    simp only [pending', hq, map_some, Option.some.injEq] at hpending
    rw [← hpending]
    exact .inl (.catchAll hq (cons_ne_nil _ _) _)
  case case4 n params pending c rest hstatic hparam q hq =>
    cases h
    exact .inl (.catchAll hq (cons_ne_nil _ _) _)
  case case5 n params pending c rest pending' hstatic hparam hq =>
    simp only [pending', hq] at h
    exact .inr h

/-- The nodes that the full search visits before the end of the path. -/
def visits (n : Node H) (remaining : Bytes) : ℕ :=
  match remaining with
  | [] => 0
  | c :: rest =>
    1 + (match _static : n.staticChildFor (c :: rest) with
      | some child => visits child ((c :: rest).drop child.path.length)
      | none => 0) +
    match _param : n.paramChild with
    | some p => visits p (afterSegment (c :: rest))
    | none => 0
termination_by sizeOf n
decreasing_by
  · exact Node.sizeOf_child (Node.staticChildFor_some _static).1
  · exact Node.sizeOf_param _param

theorem routeBacktrack_cons (n : Node H) (c : UInt8) (rest : Bytes) (params : Params) (budget : ℕ) :
    routeBacktrack n (c :: rest) params budget =
      if budget = 0 then (none, 0)
      else
        let static := ((n.staticChildFor (c :: rest)).map fun child =>
          routeBacktrack child ((c :: rest).drop child.path.length) params (budget - 1)).getD (none, budget - 1)
        if static.1.isSome then static
        else
          let param := (n.paramChild.map fun p => routeBacktrack p (afterSegment (c :: rest))
            (appendRouteParam params p.paramName (segment (c :: rest))) static.2).getD (none, static.2)
          if param.1.isSome then param
          else (n.catchAll.map fun q => (q.handler, appendRouteParam params q.catchName (c :: rest)), param.2) := by
  rw [routeBacktrack]
  split_ifs with hb
  · rfl
  cases n.staticChildFor (c :: rest) <;> cases n.paramChild <;> rfl

@[elab_as_elim]
theorem Node.induct {motive : Node H → Prop}
    (step : ∀ n, (∀ c ∈ n.children, motive c) → (∀ p, n.paramChild = some p → motive p) → motive n) (n : Node H) :
    motive n :=
  step n (fun c _hc => Node.induct step c) (fun p _hp => Node.induct step p)
termination_by sizeOf n
decreasing_by
  · exact Node.sizeOf_child _hc
  · exact Node.sizeOf_param _hp

theorem visits_cons (n : Node H) (c : UInt8) (rest : Bytes) : visits n (c :: rest) =
      1 + ((n.staticChildFor (c :: rest)).map fun child =>
        visits child ((c :: rest).drop child.path.length)).getD 0 +
      (n.paramChild.map fun p => visits p (afterSegment (c :: rest))).getD 0 := by
  rw [visits]
  cases n.staticChildFor (c :: rest) <;> cases n.paramChild <;> rfl

theorem routeBacktrack_finds : ∀ {remaining : Bytes} {params : Params} {budget : ℕ} {found : H × Params},
    (routeBacktrack n remaining params budget).1 = some found → Finds n remaining params found := by
  induction n using Node.induct with
  | step n hchildren hparam =>
    intro remaining params budget found h
    rcases remaining with _ | ⟨c, rest⟩
    · rw [routeBacktrack] at h
      exact .here h
    rw [routeBacktrack_cons] at h
    split_ifs at h with hb
    dsimp only at h
    split_ifs at h with hstatic hpar
    · rcases hchild : n.staticChildFor (c :: rest) with _ | child
      · rw [hchild] at h
        cases h
      rw [hchild] at h
      exact (hchildren child (Node.staticChildFor_some hchild).1 h).child hchild
    · rcases hp : n.paramChild with _ | p
      · rw [hp] at h
        cases h
      rw [hp] at h
      exact (hparam p hp h).param (cons_ne_nil _ _) hp
    obtain ⟨q, hq, rfl⟩ := map_eq_some_iff.mp h
    exact .catchAll hq (cons_ne_nil _ _) _

theorem routeBacktrack_spends : ∀ (remaining : Bytes) (params : Params), ∃ result k, k ≤ visits n remaining ∧
      ∀ b, visits n remaining ≤ b → routeBacktrack n remaining params b = (result, b - k) := by
  induction n using Node.induct with
  | step n hchildren hparam =>
    intro remaining params
    rcases remaining with _ | ⟨c, rest⟩
    · exact ⟨_, 0, Nat.zero_le _, fun b _ => by rw [routeBacktrack]; rfl⟩
    rw [visits_cons]
    obtain ⟨static, k, hk, hstatic⟩ : ∃ result k, k ≤ ((n.staticChildFor (c :: rest)).map fun child =>
          visits child ((c :: rest).drop child.path.length)).getD 0 ∧
        ∀ b, ((n.staticChildFor (c :: rest)).map fun child =>
          visits child ((c :: rest).drop child.path.length)).getD 0 ≤ b →
        ((n.staticChildFor (c :: rest)).map fun child => routeBacktrack child
          ((c :: rest).drop child.path.length) params b).getD (none, b) = (result, b - k) := by
      cases hchild : n.staticChildFor (c :: rest) with
      | none => exact ⟨none, 0, le_rfl, fun _ _ => rfl⟩
      | some child => exact hchildren child (Node.staticChildFor_some hchild).1 _ params
    obtain ⟨param, j, hj, hpar⟩ : ∃ result j,
        j ≤ (n.paramChild.map fun p => visits p (afterSegment (c :: rest))).getD 0 ∧
        ∀ b, (n.paramChild.map fun p => visits p (afterSegment (c :: rest))).getD 0 ≤ b →
        (n.paramChild.map fun p => routeBacktrack p (afterSegment (c :: rest))
          (appendRouteParam params p.paramName (segment (c :: rest))) b).getD (none, b) = (result, b - j) := by
      cases hp : n.paramChild with
      | none => exact ⟨none, 0, le_rfl, fun _ _ => rfl⟩
      | some p => exact hparam p hp _ _
    -- the three outcomes of the step spend one, and what their calls do
    by_cases hs : static.isSome = true
    · refine ⟨static, 1 + k, by omega, fun b hb => ?_⟩
      rw [routeBacktrack_cons, if_neg (by omega), hstatic (b - 1) (by omega), Nat.sub_sub]
      exact if_pos hs
    by_cases hp : param.isSome = true
    · refine ⟨param, 1 + k + j, by omega, fun b hb => ?_⟩
      rw [routeBacktrack_cons, if_neg (by omega), hstatic (b - 1) (by omega)]
      rw [if_neg hs, hpar _ (by omega), Nat.sub_sub, Nat.sub_sub, ← Nat.add_assoc]
      exact if_pos hp
    refine ⟨n.catchAll.map fun q => (q.handler, appendRouteParam params q.catchName (c :: rest)),
      1 + k + j, by omega, fun b hb => ?_⟩
    rw [routeBacktrack_cons, if_neg (by omega), hstatic (b - 1) (by omega)]
    rw [if_neg hs, hpar _ (by omega), Nat.sub_sub, Nat.sub_sub, ← Nat.add_assoc]
    exact if_neg hp

theorem findChild_of_mem {c : UInt8} {child : Node H} {children : List (Node H)}
    (hpair : children.Pairwise (fun a b => a.path.head? ≠ b.path.head?)) (hmem : child ∈ children)
    (hhead : child.path.head? = some c) : ∃ before after, findChild c children = some (before, child, after) := by
  rcases hfind : findChild c children with _ | r
  · exact absurd hhead (findChild_none hfind child hmem)
  obtain ⟨before, d, after⟩ := r
  obtain ⟨rfl, hd, hbefore⟩ := findChild_some hfind
  rw [pairwise_append, pairwise_cons] at hpair
  rcases mem_append.mp hmem with hmem | hmem
  · exact absurd hhead (hbefore child hmem)
  rcases mem_cons.mp hmem with rfl | hmem
  · exact ⟨before, after, rfl⟩
  · exact absurd (hd.trans hhead.symm) (hpair.2.1.1 child hmem)

theorem Node.WF.staticChildFor {child : Node H} (hn : n.WF) (hmem : child ∈ n.children) (rest : Bytes) :
    n.staticChildFor (child.path ++ rest) = some child := by
  obtain ⟨hne, -, -⟩ := hn.child hmem
  rcases hpath : child.path with _ | ⟨c, s⟩
  · exact absurd hpath hne
  obtain ⟨_, _, hfind⟩ := findChild_of_mem (c := c) hn.heads hmem (by rw [hpath]; rfl)
  rw [cons_append, Node.staticChildFor, hfind]
  exact if_pos (by rw [hpath]; exact isPrefixOf_iff_prefix.mpr (prefix_append (c :: s) rest))

theorem routeBacktrack_complete (hn : n.WF) {h : H} (hh : Holds n ts h) :
    ∀ {remaining : Bytes} {ps : Params} (params : Params) {budget : ℕ}, Captures true ts remaining ps →
      visits n remaining ≤ budget → (routeBacktrack n remaining params budget).1.isSome = true := by
  induction hh with
  | @here n h hn' =>
    intro remaining ps params budget hcaps _
    cases hcaps
    rw [routeBacktrack, hn']
    rfl
  | @child n child ts h hmem _ ih =>
    intro remaining ps params budget hcaps hbudget
    obtain ⟨hne, -, hwf⟩ := hn.child hmem
    obtain ⟨rest, rfl, hrest⟩ := hcaps.of_bytes
    have hstatic := hn.staticChildFor hmem rest
    obtain ⟨c, s, hpath⟩ := exists_cons_of_ne_nil hne
    rw [hpath, cons_append] at hstatic hbudget ⊢
    rw [visits_cons, hstatic, map_some, getD_some, ← cons_append, ← hpath, drop_left] at hbudget
    rw [routeBacktrack_cons, if_neg (by omega), hstatic, map_some, getD_some, ← cons_append,
      ← hpath, drop_left]
    have hsome := @ih hwf _ _ params (budget - 1) hrest (by omega)
    rw [if_pos hsome]
    exact hsome
  | @param n p ts h hp _ ih =>
    intro remaining ps params budget hcaps hbudget
    cases hcaps with
    | @param _ _ _ ps hne hcaps =>
      obtain ⟨c, rest, rfl⟩ := exists_cons_of_ne_nil (hne rfl)
      rw [visits_cons, hp, map_some, getD_some] at hbudget
      rw [routeBacktrack_cons, if_neg (by omega), hp]
      dsimp only [map_some, getD_some]
      split_ifs with hstatic hpar
      · exact hstatic
      · exact hpar
      refine absurd (ih (hn.param hp) _ hcaps ?_) hpar
      rcases hchild : n.staticChildFor (c :: rest) with _ | child
      · simp only [map_none, getD_none] at hbudget ⊢
        omega
      obtain ⟨_, k, _, hrun⟩ := routeBacktrack_spends (n := child) ((c :: rest).drop child.path.length) params
      rw [hchild] at hbudget
      simp only [map_some, getD_some] at hbudget ⊢
      rw [hrun _ (by omega)]
      omega
  | @catchAll n q hq =>
    intro remaining ps params budget hcaps hbudget
    cases hcaps with
    | catchAll hne =>
      obtain ⟨c, rest, rfl⟩ := exists_cons_of_ne_nil (hne rfl)
      rw [visits_cons] at hbudget
      rw [routeBacktrack_cons, if_neg (by omega), hq]
      dsimp only
      split_ifs with hstatic hpar
      · exact hstatic
      · exact hpar
      · rfl

theorem routeBacktrack_enough (params : Params) {b b' : ℕ} (hb : visits n remaining ≤ b)
    (hb' : visits n remaining ≤ b') :
    (routeBacktrack n remaining params b).1 = (routeBacktrack n remaining params b').1 := by
  obtain ⟨_, _, -, h⟩ := routeBacktrack_spends (n := n) remaining params
  rw [h b hb, h b' hb']

/-- The node on which the greedy walk comes to the end of the path. -/
def endNode (n : Node H) (remaining : Bytes) : Option (Node H) :=
  match remaining with
  | [] => some n
  | c :: rest =>
    match _static : n.staticChildFor (c :: rest) with
    | some child => endNode child ((c :: rest).drop child.path.length)
    | none =>
      match _param : n.paramChild with
      | some p => endNode p (afterSegment (c :: rest))
      | none => none
termination_by sizeOf n
decreasing_by
  · exact Node.sizeOf_child (Node.staticChildFor_some _static).1
  · exact Node.sizeOf_param _param

theorem endNode_cons (n : Node H) (c : UInt8) (rest : Bytes) :
    endNode n (c :: rest) = (n.staticChildFor (c :: rest)).elim
      (n.paramChild.bind fun p => endNode p (afterSegment (c :: rest)))
      fun child => endNode child ((c :: rest).drop child.path.length) := by
  rw [endNode]
  cases n.staticChildFor (c :: rest) <;> cases n.paramChild <;> rfl

/-- The walk ends on a node without a handler: the source then answers nil, whatever catch-all it
has passed. -/
def EndsBare (n : Node H) (remaining : Bytes) : Prop := ∃ m, endNode n remaining = some m ∧ m.handler = none

theorem EndsBare.nil (h : n.handler = none) : EndsBare n [] := by
  refine ⟨n, ?_, h⟩
  rw [endNode]

theorem EndsBare.child {child : Node H} {c : UInt8} (hstatic : n.staticChildFor (c :: rest) = some child)
    (h : EndsBare child ((c :: rest).drop child.path.length)) : EndsBare n (c :: rest) := by
  obtain ⟨m, hm, hbare⟩ := h
  refine ⟨m, ?_, hbare⟩
  rw [endNode_cons, hstatic]
  exact hm

theorem EndsBare.param {c : UInt8} (hstatic : n.staticChildFor (c :: rest) = none)
    (hp : n.paramChild = some p) (h : EndsBare p (afterSegment (c :: rest))) : EndsBare n (c :: rest) := by
  obtain ⟨m, hm, hbare⟩ := h
  refine ⟨m, ?_, hbare⟩
  rw [endNode_cons, hstatic, hp]
  exact hm

theorem walk_pending (hpending : pending.isSome = true) (h : walk n remaining params pending = none)
    : EndsBare n remaining := by
  fun_induction walk n remaining params pending
  case case1 n params pending => exact .nil (map_eq_none_iff.mp h)
  case case2 n params pending c rest pending' child hstatic ih =>
    exact .child hstatic (ih (by cases hq : n.catchAll <;> simp [pending', hq, hpending]) h)
  case case3 n params pending c rest pending' hstatic p hparam ih =>
    exact .param hstatic hparam (ih (by cases hq : n.catchAll <;> simp [pending', hq, hpending]) h)
  case case4 => cases h
  case case5 n params pending c rest pending' hstatic hparam hq =>
    simp only [pending', hq, map_eq_none_iff] at h
    rw [h] at hpending
    cases hpending

theorem siblings_false (h : hasStaticParamSiblings n = false) :
    (n.paramChild = none ∨ n.children = []) ∧ (∀ c ∈ n.children, hasStaticParamSiblings c = false) ∧
      ∀ p, n.paramChild = some p → hasStaticParamSiblings p = false := by
  rw [hasStaticParamSiblings] at h
  simp only [Bool.or_eq_false_iff, Bool.and_eq_false_iff, List.any_eq_false, List.mem_attach, true_implies,
    Bool.not_eq_true, Subtype.forall, isSome_eq_false_iff, isNone_iff_eq_none, Bool.not_eq_false',
    List.isEmpty_iff] at h
  refine ⟨h.1.1, h.1.2, fun p hp => ?_⟩
  have hparam := h.2
  split at hparam
  · rename_i p' hp'
    rw [hp] at hp'
    cases hp'
    exact hparam
  rename_i hp'
  rw [hp] at hp'
  cases hp'

/-- Without static and parameter siblings, what the walk does not find the search with
backtracking does not find either, but for the bare nodes. -/
theorem walk_none (hsib : hasStaticParamSiblings n = false) (hbare : ¬ EndsBare n remaining)
    (h : walk n remaining params pending = none) (params' : Params) (budget : ℕ) :
    (routeBacktrack n remaining params' budget).1 = none := by
  fun_induction walk n remaining params pending generalizing params' budget
  case case1 n params pending => exact absurd (.nil (map_eq_none_iff.mp h)) hbare
  case case2 n params pending c rest pending' child hstatic ih =>
    obtain ⟨hone, hchildren, -⟩ := siblings_false hsib
    have hmem := (Node.staticChildFor_some hstatic).1
    have hchild := ih (hchildren child hmem) (fun hb => hbare (.child hstatic hb)) h
    have hparam : n.paramChild = none := by
      refine hone.resolve_right fun hnil => ?_
      rw [hnil] at hmem
      cases hmem
    have hcatch : n.catchAll = none := by
      cases hq : n.catchAll with
      | none => rfl
      | some q => exact absurd (.child hstatic (walk_pending (by simp [pending', hq]) h)) hbare
    rw [routeBacktrack_cons, hstatic, hparam, hcatch]
    simp only [map_some, getD_some, map_none, getD_none, hchild]
    split_ifs
    · rfl
    · exact hchild params' _
    · rfl
  case case3 n params pending c rest pending' hstatic p hparam ih =>
    obtain ⟨-, -, hparams⟩ := siblings_false hsib
    have hchild := ih (hparams p hparam) (fun hb => hbare (.param hstatic hparam hb)) h
    have hcatch : n.catchAll = none := by
      cases hq : n.catchAll with
      | none => rfl
      | some q => exact absurd (.param hstatic hparam (walk_pending (by simp [pending', hq]) h)) hbare
    rw [routeBacktrack_cons, hstatic, hparam, hcatch]
    simp only [map_some, getD_some, map_none, getD_none, hchild]
    split_ifs <;> rfl
  case case4 => cases h
  case case5 n params pending c rest pending' hstatic hparam hq =>
    rw [routeBacktrack_cons, hstatic, hparam, hq]
    split_ifs <;> rfl

theorem walk_cons (n : Node H) (c : UInt8) (rest : Bytes) (params : Params)
    (pending : Option (CatchAll H × Bytes × Params)) :
    walk n (c :: rest) params pending = (n.staticChildFor (c :: rest)).elim
        (n.paramChild.elim (((n.catchAll.map (·, c :: rest, params)).or pending).map fun p =>
            (p.1.handler, appendRouteParam p.2.2 p.1.catchName p.2.1))
          fun p => walk p (afterSegment (c :: rest)) (appendRouteParam params p.paramName (segment (c :: rest)))
            ((n.catchAll.map (·, c :: rest, params)).or pending))
        fun child => walk child ((c :: rest).drop child.path.length) params
          ((n.catchAll.map (·, c :: rest, params)).or pending) := by
  rw [walk]
  cases n.staticChildFor (c :: rest) <;> cases n.paramChild <;> cases n.catchAll <;> rfl

theorem walk_complete (hn : n.WF) (hsib : hasStaticParamSiblings n = false) {h : H}
    (hh : Holds n ts h) (hcaps : Captures true ts remaining ps)
    (hbare : ¬ EndsBare n remaining) (params : Params) (pending : Option (CatchAll H × Bytes × Params)) :
    (walk n remaining params pending).isSome = true := by
  cases hwalk : walk n remaining params pending with
  | some found => rfl
  | none =>
    have hsome := routeBacktrack_complete hn hh params hcaps le_rfl
    rw [walk_none hsib hbare hwalk params (visits n remaining)] at hsome
    cases hsome

inductive StaticAt : Node H → Bytes → H → Prop
  | here {n : Node H} {h : H} : n.handler = some h → StaticAt n [] h
  | child {n c : Node H} {rest : Bytes} {h : H} : c ∈ n.children → StaticAt c rest h → StaticAt n (c.path ++ rest) h

theorem StaticAt.holds {h : H} (hs : StaticAt n rest h) : Holds n (rest.map .byte) h := by
  induction hs with
  | here hn => exact .here hn
  | child hc _ ih =>
    rw [map_append]
    exact .child hc ih

theorem StaticAt.walk {h : H} (hs : StaticAt n rest h) (hn : n.WF) (params : Params) :
    ∀ pending, walk n rest params pending = some (h, params) := by
  induction hs with
  | here hn' =>
    intro pending
    rw [Routing.walk, hn']
    rfl
  | @child n child rest h hc _ ih =>
    intro pending
    obtain ⟨hne, -, hwf⟩ := hn.child hc
    have hstatic := hn.staticChildFor hc rest
    obtain ⟨c, s, hpath⟩ := exists_cons_of_ne_nil hne
    rw [hpath, cons_append] at hstatic ⊢
    rw [walk_cons, hstatic, elim_some, ← cons_append, ← hpath, drop_left]
    exact ih hwf _

end AlosHttp.Routing

import AlosHttp.Router.Lookup

/-! What `Lookup` answers in terms of the registered patterns. -/
namespace AlosHttp.Routing
open List AlosHttp.Core
variable {H : Type}

/-- A pattern fits a path, with something of the path left for each parameter and for the
catch-all. -/
def Matches (pattern path : Bytes) : Prop := ∃ ps, Captures true (tokens pattern) path ps

def Tok.text : Tok → Bytes
  | .byte c => [c]
  | .param name => colon :: name
  | .catchAll name => star :: name

def render (ts : List Tok) : Bytes := ts.flatMap Tok.text

/-- What the reading of a pattern gives: names of parameters end at a '/', and a catch-all is
last. -/
def Readable : List Tok → Prop
  | [] => True
  | .byte c :: ts => isStatic c = true ∧ Readable ts
  | .param name :: ts => slash ∉ name ∧ (∀ t ∈ ts.head?, t = .byte slash) ∧ Readable ts
  | .catchAll _ :: ts => ts = []

theorem tokens_cons_of_static {c : UInt8} (h : isStatic c = true) (rest : Bytes) :
    tokens (c :: rest) = .byte c :: tokens rest := by
  have hs := tokens_static (s := [c]) (by simpa using h) rest
  exact hs

theorem tokens_readable (pattern : Bytes) : Readable (tokens pattern) := by
  fun_induction tokens pattern with
  | case1 => exact trivial
  | case2 rest ih =>
    refine ⟨fun hmem => ?_, fun t ht => ?_, ih⟩
    · have hne := mem_takeWhile_imp hmem
      exact absurd rfl (of_decide_eq_true hne)
    rcases hrest : rest.dropWhile (· ≠ slash) with _ | ⟨d, tail⟩
    · rw [hrest, tokens_nil] at ht
      cases ht
    have hd : d = slash := by
      have hhead := head?_dropWhile_not (· ≠ slash) rest
      rw [hrest] at hhead
      simpa using hhead
    rw [hrest, hd, tokens_cons_of_static (by decide)] at ht
    exact (Option.some.inj ht).symm
  | case3 rest _ => rfl
  | case4 c rest hcolon hstar ih => exact ⟨isStatic_of_ne hcolon hstar, ih⟩

theorem rename_head (us ts : List Tok) (h : ∀ t ∈ ts.head?, t = .byte slash) :
    ∀ t ∈ (rename us ts).head?, t = .byte slash := by
  rcases ts with _ | ⟨t, ts⟩
  · cases us with
    | nil => exact h
    | cons u us => cases u <;> exact h
  obtain rfl := h t rfl
  rcases us with _ | ⟨u, us⟩
  · exact h
  cases u with
  | byte a =>
    rw [rename]
    split_ifs <;> exact h
  | param | catchAll => exact h

theorem Readable.rename {us : List Tok} (hu : Readable us) :
    ∀ {ts : List Tok}, Readable ts → Readable (rename us ts) := by
  induction us with
  | nil =>
    intro ts ht
    exact ht
  | cons u us ih =>
    intro ts ht
    rcases ts with _ | ⟨t, ts⟩
    · cases u <;> exact ht
    cases u with
    | byte a =>
      cases t with
      | byte b =>
        rw [Routing.rename]
        split_ifs
        · exact ⟨ht.1, ih hu.2 ht.2⟩
        · exact ht
      | param | catchAll => exact ht
    | param a =>
      cases t with
      | byte | catchAll => exact ht
      | param b => exact ⟨hu.1, rename_head us ts ht.2.1, ih hu.2.2 ht.2.2⟩
    | catchAll a =>
      exact ht

theorem tokens_render {ts : List Tok} (h : Readable ts) : tokens (render ts) = ts := by
  induction ts with
  | nil => exact tokens_nil
  | cons t ts ih =>
    unfold render at ih ⊢
    rw [flatMap_cons]
    cases t with
    | byte c =>
      rw [Tok.text, singleton_append, tokens_cons_of_static h.1, ih h.2]
    | param name =>
      obtain ⟨hname, hhead, hts⟩ := h
      have hall : ∀ c ∈ name, (decide (c ≠ slash)) = true := by
        intro c hc
        rw [decide_eq_true_iff]
        rintro rfl
        exact hname hc
      have hnext : (ts.flatMap Tok.text).takeWhile (· ≠ slash) = [] := by
        rcases ts with _ | ⟨t, ts⟩
        · rfl
        obtain rfl := hhead t rfl
        rfl
      have hrest : (ts.flatMap Tok.text).dropWhile (· ≠ slash) = ts.flatMap Tok.text := by
        have hsplit := takeWhile_append_dropWhile (p := (· ≠ slash)) (l := ts.flatMap Tok.text)
        rw [hnext] at hsplit
        exact hsplit
      rw [Tok.text, cons_append, tokens_colon, takeWhile_append_of_pos hall, dropWhile_append_of_pos hall,
        hnext, hrest, append_nil, ih hts]
    | catchAll name =>
      obtain rfl : ts = [] := h
      rw [flatMap_nil, append_nil, Tok.text, tokens_star]

theorem trieOf_readable {routes : List (Bytes × H)} {ts : List Tok} {h : H} (hh : Holds (trieOf routes) ts h) :
    Readable ts := by
  obtain ⟨p, _, after, -, -, rfl⟩ := holds_trieOf.mp hh
  clear hh
  induction after using reverseRecOn with
  | nil => exact tokens_readable p
  | append_singleton after a ih =>
    rw [foldl_append]
    exact (tokens_readable a.1).rename ih

theorem render_bytes (s : Bytes) (ts : List Tok) : render (s.map .byte ++ ts) = s ++ render ts := by
  unfold render
  rw [flatMap_append, flatMap_map]
  congr 1
  exact flatMap_singleton' s

theorem walkRoutes_mem {n : Node H} (hn : n.WF) : ∀ {before : Bytes} {e : Bytes × H}, e ∈ walkRoutes n before →
    ∃ ts, Holds n ts e.2 ∧ e.1 = before ++ n.path ++ render ts := by
  induction n using Node.induct with
  | step n hchildren hparam =>
    intro before e he
    rw [walkRoutes] at he
    rcases mem_append.mp he with he | he
    · rcases mem_append.mp he with he | he
      · rcases mem_append.mp he with he | he
        · obtain ⟨h, hn', rfl⟩ := Option.map_eq_some_iff.mp (Option.mem_toList.mp he)
          exact ⟨[], .here hn', (append_nil _).symm⟩
        obtain ⟨c, -, hc⟩ := mem_flatMap.mp he
        obtain ⟨ts, hh, htext⟩ := hchildren c.1 c.2 (hn.child c.2).2.2 hc
        refine ⟨_, .child c.2 hh, ?_⟩
        rw [htext, render_bytes, append_assoc (before ++ n.path)]
      split at he
      · rename_i p hp
        obtain ⟨ts, hh, htext⟩ := hparam p hp (hn.param hp) he
        refine ⟨_, .param hp hh, ?_⟩
        rw [htext, hn.param_path hp, append_nil, render, render, flatMap_cons, Tok.text, ← append_assoc]
      · cases he
    obtain ⟨q, hq, rfl⟩ := Option.map_eq_some_iff.mp (Option.mem_toList.mp he)
    exact ⟨_, .catchAll hq, by rw [render, flatMap_singleton]; rfl⟩

theorem Holds.mem_walkRoutes {n : Node H} {ts : List Tok} {h : H} (hh : Holds n ts h) (hn : n.WF) :
    ∀ before, (before ++ n.path ++ render ts, h) ∈ walkRoutes n before := by
  induction hh with
  | here hhandler =>
    intro before
    rw [walkRoutes, hhandler]
    exact mem_append_left _ (mem_append_left _ (mem_append_left _ (by simp [render])))
  | @child n c ts h hc _ ih =>
    intro before
    have hchild := ih (hn.child hc).2.2 (before ++ n.path)
    rw [render_bytes, ← append_assoc, walkRoutes]
    refine mem_append_left _ (mem_append_left _ (mem_append_right _ ?_))
    exact mem_flatMap.mpr ⟨⟨c, hc⟩, mem_attach _ _, hchild⟩
  | @param n p ts h hp _ ih =>
    intro before
    have hparam := ih (hn.param hp) (before ++ n.path ++ colon :: p.paramName)
    rw [hn.param_path hp, append_nil] at hparam
    rw [walkRoutes, render, flatMap_cons, Tok.text, ← append_assoc]
    refine mem_append_left _ (mem_append_right _ ?_)
    split
    · rename_i p' hp'
      obtain rfl := Option.some.inj (hp.symm.trans hp')
      exact hparam
    · rename_i hnone
      rw [hp] at hnone
      cases hnone
  | @catchAll n q hq =>
    intro before
    rw [walkRoutes, hq]
    exact mem_append_right _ (by simp [render, Tok.text])

/-- Where a built tree finds a path that a pattern fits: the search with backtracking has budget for the
nodes on the way, and without it the walk does not end on a node without a handler. -/
structure BuiltTree.Covers (t : BuiltTree H) (path : Bytes) : Prop where
  budget : t.backtrackable = true → visits t.root (path.drop t.root.path.length) ≤ routerBacktrackBudget
  ends : t.backtrackable = false → ¬ EndsBare t.root (path.drop t.root.path.length)

theorem findBuiltOrBacktrack_iff {routes : List (Bytes × H)} {path : Bytes}
    (hcov : (buildTree (trieOf routes)).Covers path) :
    (findBuiltOrBacktrack (buildTree (trieOf routes)) path).isSome = true ↔ ∃ r ∈ routes, Matches r.1 path := by
  obtain ⟨hwf, hpath⟩ := trieOf_wf routes
  constructor
  · intro hsome
    obtain ⟨found, hfound⟩ := Option.isSome_iff_exists.mp hsome
    obtain ⟨ts, ps, hh, hcaps, -⟩ := findBuiltOrBacktrack_finds hwf hpath hfound
    obtain ⟨p, hp, herase⟩ := trieOf_holds_erase hh
    obtain ⟨ps', hps'⟩ := hcaps.erase herase
    exact ⟨_, hp, ps', hps'⟩
  rintro ⟨r, hr, ps, hcaps⟩
  obtain ⟨ts, h, hh, herase⟩ := trieOf_has hr
  obtain ⟨ps', hcaps'⟩ := hcaps.erase herase
  obtain ⟨_, rest, rfl, hh', hrest⟩ := holds_collapseRoot hpath hh hcaps'
  have hwf' := collapseRoot_wf hwf
  have hpre : (collapseRoot (trieOf routes)).path.isPrefixOf ((collapseRoot (trieOf routes)).path ++ rest) = true :=
    isPrefixOf_iff_prefix.mpr (prefix_append _ _)
  unfold findBuiltOrBacktrack findBuilt findWithBacktracking
  unfold buildTree at hcov ⊢
  rw [if_pos hpre, if_pos hpre]
  have hbudget := hcov.budget
  have hends := hcov.ends
  rw [drop_left] at hbudget hends ⊢
  cases hwalk : walk (collapseRoot (trieOf routes)) rest [] none with
  | some found => rfl
  | none =>
    by_cases hback : hasStaticParamSiblings (collapseRoot (trieOf routes)) = true
    · rw [if_pos hback]
      exact routeBacktrack_complete hwf' hh' [] hrest (hbudget hback)
    rw [Bool.not_eq_true] at hback
    have hsome := walk_complete hwf' hback hh' hrest (hends hback) [] none
    rw [hwalk] at hsome
    cases hsome

theorem find_of_findBuiltOrBacktrack {t : BuiltTree H} {path : Bytes}
    (h : (findBuiltOrBacktrack t path).isSome = true) : (t.find path).isSome = true := by
  unfold BuiltTree.find
  cases t.findStatic path with
  | some e => rfl
  | none =>
    obtain ⟨_, hfound⟩ := Option.isSome_iff_exists.mp h
    rw [hfound]
    rfl

theorem findInTree_nil (path : Bytes) : findInTree (trieOf ([] : List (Bytes × H))) path = none := by
  rw [findInTree]
  cases path with
  | nil =>
    rw [walk]
    rfl
  | cons c rest => exact walk_cons _ c rest [] none

/-- The routes that `addImplicitHEAD` adds are those of GET that stand and whose text the tree of the
registered HEAD routes does not find as a path. -/
theorem missingHEAD_iff {regs : List (Registration H)} {e : Bytes × H} : e ∈ (register regs).missingHEAD ↔
    (∃ ts, Holds (trieOf (routesFor regs .get)) ts e.2 ∧ e.1 = render ts) ∧
      findInTree (trieOf (routesFor regs .head)) e.1 = none := by
  obtain ⟨hwf, hpath⟩ := trieOf_wf (routesFor regs .get)
  have hwalked : e ∈ walkRoutes (trieOf (routesFor regs .get)) [] ↔
      ∃ ts, Holds (trieOf (routesFor regs .get)) ts e.2 ∧ e.1 = render ts := by
    constructor
    · intro he
      obtain ⟨ts, hh, htext⟩ := walkRoutes_mem hwf he
      rw [hpath, append_nil, nil_append] at htext
      exact ⟨ts, hh, htext⟩
    · rintro ⟨ts, hh, htext⟩
      have hmem := hh.mem_walkRoutes hwf []
      rw [hpath, append_nil, nil_append, ← htext] at hmem
      exact hmem
  unfold Router.missingHEAD
  rw [register_trees, register_trees]
  by_cases hempty : (routesFor regs .get).isEmpty = true
  · rw [treeOf, if_pos hempty]
    refine iff_of_false not_mem_nil ?_
    rintro ⟨⟨ts, hh, -⟩, -⟩
    rw [List.isEmpty_iff.mp hempty] at hh
    exact not_holds_bare hh
  have htree : treeOf (routesFor regs .get) = some (trieOf (routesFor regs .get)) := if_neg hempty
  rw [htree]
  by_cases hnone : (routesFor regs .head).isEmpty = true
  · have hhead : treeOf (routesFor regs .head) = none := if_pos hnone
    rw [hhead, mem_filter, hwalked, List.isEmpty_iff.mp hnone, findInTree_nil]
    simp
  · have hhead : treeOf (routesFor regs .head) = some (trieOf (routesFor regs .head)) := if_neg hnone
    rw [hhead, mem_filter, hwalked, Option.isNone_iff_eq_none]

theorem missingHEAD_mem {regs : List (Registration H)} {e : Bytes × H} (he : e ∈ (register regs).missingHEAD) :
    ∃ g ∈ regs, g.method = .get ∧ g.handler = e.2 ∧ (tokens g.path).map Tok.erase = (tokens e.1).map Tok.erase := by
  obtain ⟨⟨_, hh, htext⟩, -⟩ := missingHEAD_iff.mp he
  obtain ⟨p, hp, herase⟩ := trieOf_holds_erase hh
  obtain ⟨g, hg, heq⟩ := mem_map.mp hp
  obtain ⟨hmem, hmethod⟩ := mem_filter.mp hg
  obtain ⟨rfl, hhandler⟩ := Prod.mk.inj heq
  refine ⟨g, hmem, of_decide_eq_true hmethod, hhandler, ?_⟩
  rw [herase, htext, tokens_render (trieOf_readable hh)]

theorem builtRoutes_mem {regs : List (Registration H)} {m : Method} {e : Bytes × H} (he : e ∈ builtRoutes regs m) :
    ∃ g ∈ regs, (g.method = m ∨ m = .head ∧ g.method = .get) ∧ g.handler = e.2 ∧
      (tokens g.path).map Tok.erase = (tokens e.1).map Tok.erase := by
  rcases mem_append.mp he with he | he
  · obtain ⟨g, hg, heq⟩ := mem_map.mp he
    obtain ⟨hmem, hmethod⟩ := mem_filter.mp hg
    cases heq
    exact ⟨g, hmem, .inl (of_decide_eq_true hmethod), rfl, rfl⟩
  split_ifs at he with hm
  · obtain ⟨g, hmem, hget, hhandler, herase⟩ := missingHEAD_mem he
    exact ⟨g, hmem, .inr ⟨hm, hget⟩, hhandler, herase⟩
  · cases he

theorem mem_builtRoutes {regs : List (Registration H)} {g : Registration H} (hg : g ∈ regs) :
    (g.path, g.handler) ∈ builtRoutes regs g.method := by
  apply mem_append_left
  exact mem_map.mpr ⟨g, mem_filter.mpr ⟨hg, decide_eq_true rfl⟩, rfl⟩

theorem methodIndex_name (m : Method) : methodIndex m.name = some m := by
  cases m <;> decide +kernel

end AlosHttp.Routing

import AlosHttp.Router.Matching

/-! What `Lookup` answers for every set of routes and every path: the handler and the parameters
of a route that fits, the misses and their `Allow` lists, HEAD beside GET, and the answers before
and after `Build`. -/
namespace AlosHttp.Routing
open List Option AlosHttp.Core
variable {H : Type}

theorem render_tokens (pattern : Bytes) : render (tokens pattern) = pattern := by
  unfold render
  fun_induction tokens pattern with
  | case1 => rfl
  | case2 rest ih => rw [flatMap_cons, ih, Tok.text, cons_append, takeWhile_append_dropWhile]
  | case3 rest _ => rw [flatMap_singleton, Tok.text]
  | case4 c rest _ _ ih => rw [flatMap_cons, ih, Tok.text, singleton_append]

/-- In each tree that is built a route that stands has its own names, and a request has room for the
parameters of each pattern. -/
structure NamesKept (regs : List (Registration H)) : Prop where
  kept : ∀ m r ts, Stands (builtRoutes regs m) r ts → ts = tokens r.1
  fits : ∀ a ∈ regs, (paramNames (tokens a.path)).length ≤ maxParams

theorem routesFor_mem {regs : List (Registration H)} {m : Method} {e : Bytes × H} (he : e ∈ routesFor regs m) :
    ∃ g ∈ regs, g.method = m ∧ (g.path, g.handler) = e := by
  obtain ⟨g, hg, rfl⟩ := mem_map.mp he
  obtain ⟨hmem, hmethod⟩ := mem_filter.mp hg
  exact ⟨g, hmem, of_decide_eq_true hmethod, rfl⟩

theorem builtRoutes_get (regs : List (Registration H)) : builtRoutes regs .get = routesFor regs .get :=
  append_nil _

section
variable {regs : List (Registration H)} (hnames : NamesKept regs)
include hnames

theorem NamesKept.missingHEAD_mem {e : Bytes × H} (he : e ∈ (register regs).missingHEAD) :
    ∃ g ∈ regs, g.method = .get ∧ (g.path, g.handler) = e := by
  obtain ⟨⟨ts, hh, htext⟩, -⟩ := missingHEAD_iff.mp he
  obtain ⟨p, hs⟩ := holds_trieOf.mp hh
  have hts := hnames.kept .get (p, e.2) ts (by rw [builtRoutes_get]; exact hs)
  rw [hts, render_tokens] at htext
  obtain ⟨g, hg, hm, heq⟩ := routesFor_mem hs.mem
  exact ⟨g, hg, hm, heq.trans (Prod.ext htext.symm rfl)⟩

theorem NamesKept.builtRoutes_mem {m : Method} {e : Bytes × H} (he : e ∈ builtRoutes regs m) :
    ∃ g ∈ regs, (g.method = m ∨ m = .head ∧ g.method = .get) ∧ (g.path, g.handler) = e := by
  rcases mem_append.mp he with he | he
  · obtain ⟨g, hg, hm, heq⟩ := routesFor_mem he
    exact ⟨g, hg, .inl hm, heq⟩
  split_ifs at he with hhead
  · obtain ⟨g, hg, hm, heq⟩ := hnames.missingHEAD_mem he
    exact ⟨g, hg, .inr ⟨hhead, hm⟩, heq⟩
  · cases he

theorem NamesKept.holds {m : Method} {ts : List Tok} {h : H} (hh : Holds (trieOf (builtRoutes regs m)) ts h) :
    ∃ g ∈ regs, (g.method = m ∨ m = .head ∧ g.method = .get) ∧ g.handler = h ∧ tokens g.path = ts := by
  obtain ⟨p, hs⟩ := holds_trieOf.mp hh
  obtain ⟨g, hg, hm, heq⟩ := hnames.builtRoutes_mem hs.mem
  obtain ⟨hpath, hhandler⟩ := Prod.mk.inj heq
  refine ⟨g, hg, hm, hhandler, ?_⟩
  rw [hnames.kept m (p, h) ts hs, hpath]

end

variable {m : Method} {path : Bytes} {root : Node H}

theorem methodIndex_some {method : Bytes} (h : methodIndex method = some m) : m.name = method := by
  simpa using find?_some h

theorem methodMiss_ne_found (b : Built H) (m : Method) (path : Bytes) (h : H) (ps : Params) :
    b.methodMiss m path ≠ .found h ps := by
  unfold Built.methodMiss
  dsimp only
  split_ifs <;> exact fun heq => by cases heq

theorem lookupBuilt_found {b : Built H} {h : H} {ps : Params} :
    b.lookupBuilt m path = .found h ps ↔ ∃ t, b.trees m = some t ∧ t.find path = some (h, ps) := by
  unfold Built.lookupBuilt
  rcases htree : b.trees m with _ | t
  · constructor
    · exact fun heq => absurd heq (methodMiss_ne_found b m path h ps)
    rintro ⟨t, ht, -⟩
    cases ht
  dsimp only
  cases hfind : t.find path with
  | some found =>
    constructor
    · intro heq
      cases heq
      exact ⟨t, rfl, hfind⟩
    rintro ⟨t', ht', hfind'⟩
    cases ht'
    rw [hfind] at hfind'
    cases hfind'
    rfl
  | none =>
    constructor
    · intro heq
      split_ifs at heq
      exact absurd heq (methodMiss_ne_found b m path h ps)
    rintro ⟨t', ht', hfind'⟩
    cases ht'
    rw [hfind] at hfind'
    cases hfind'

theorem lookup_name (b : Built H) (m : Method) (path : Bytes) : b.lookup m.name path = b.lookupBuilt m path := by
  unfold Built.lookup
  rw [methodIndex_name]

theorem emptyCatch_route (hpath : root.path = []) {q : CatchAll H} (hq : (collapseRoot root).catchAll = some q) :
    ∃ ts, Holds root ts q.handler ∧ Captures false ts (collapseRoot root).path [(q.catchName, [])] := by
  have hcaps : Captures false ((collapseRoot root).path.map .byte ++ [.catchAll q.catchName])
      (collapseRoot root).path [(q.catchName, [])] := by
    have hempty : Captures false [.catchAll q.catchName] [] [(q.catchName, [])] := Captures.catchAll nofun
    have hall := hempty.bytes (collapseRoot root).path
    rw [append_nil] at hall
    exact hall
  refine ⟨_, ?_, hcaps⟩
  rcases collapseRoot_cases root with heq | ⟨-, -, -, hone⟩
  · rw [heq] at hq ⊢
    rw [hpath]
    exact .catchAll hq
  refine Holds.child ?_ (.catchAll hq)
  rw [hone]
  exact mem_cons_self

/-- Each answered handler is that of a route of the method, or of GET for HEAD, that fits, and the
parameters have that route's own names. -/
def Sound (regs : List (Registration H)) : Prop :=
  ∀ {method path : Bytes} {h : H} {ps : Params}, (register regs).build.lookup method path = .found h ps →
    ∃ g ∈ regs, (g.method.name = method ∨ method = Method.head.name ∧ g.method = .get) ∧ g.handler = h ∧
      Captures false (tokens g.path) path ps ∧ ps.map Prod.fst = paramNames (tokens g.path)

theorem NamesKept.sound {regs : List (Registration H)} (hnames : NamesKept regs) : Sound regs := by
  intro method path h ps hfound
  unfold Built.lookup at hfound
  rcases hidx : methodIndex method with _ | m
  · rw [hidx] at hfound
    cases hfound
  rw [hidx] at hfound
  obtain rfl := methodIndex_some hidx
  obtain ⟨t, htree, hfind⟩ := lookupBuilt_found.mp hfound
  rw [build_trees] at htree
  split_ifs at htree
  cases htree
  obtain ⟨hwf, hpath⟩ := trieOf_wf (builtRoutes regs m)
  -- a route of the trie that fits, with the recorded parameters
  have hroute : ∃ ts all, Holds (trieOf (builtRoutes regs m)) ts h ∧ Captures false ts path all ∧
    ps = record [] all := by
    rcases find_finds hwf hpath hfind with ⟨ts, all, hh, hcaps, hrec⟩ | ⟨q, hq, rfl, heq⟩
    · exact ⟨ts, all, hh, hcaps.loose, hrec⟩
    obtain ⟨ts, hh, hcaps⟩ := emptyCatch_route hpath hq
    cases heq
    exact ⟨ts, _, hh, hcaps, rfl⟩
  obtain ⟨ts, all, hh, hcaps, rfl⟩ := hroute
  obtain ⟨g, hg, hmethod, hhandler, rfl⟩ := hnames.holds hh
  have hlen : all.length ≤ maxParams := by
    have hfits := hnames.fits g hg
    rw [← hcaps.names, length_map] at hfits
    exact hfits
  rw [record_nil hlen]
  refine ⟨g, hg, ?_, hhandler, hcaps, hcaps.names⟩
  rcases hmethod with rfl | ⟨rfl, hget⟩
  · exact .inl rfl
  · exact .inr ⟨rfl, hget⟩

def BuiltTree.covers (t : BuiltTree H) (path : Bytes) : Bool :=
  let rest := path.drop t.root.path.length
  if t.backtrackable then visits t.root rest ≤ routerBacktrackBudget
  else (endNode t.root rest).all fun m => m.handler.isSome

theorem covers_sound {t : BuiltTree H} (h : t.covers path = true) : t.Covers path := by
  unfold BuiltTree.covers at h
  constructor
  · intro hback
    rw [if_pos hback] at h
    exact of_decide_eq_true h
  rintro hback ⟨m, hm, hbare⟩
  rw [hback, if_neg Bool.false_ne_true, hm, all_some, hbare] at h
  cases h

def oneRoute : List (Registration ℕ) := [⟨.get, ascii "/a/:x", 1⟩]

/-- A static text, a parameter and a catch-all side by side, and another method. -/
def siblings : List (Registration ℕ) :=
  [⟨.get, ascii "/a/b", 1⟩, ⟨.get, ascii "/a/:x", 2⟩, ⟨.get, ascii "/a/*rest", 3⟩, ⟨.post, ascii "/z/:y", 4⟩]

theorem siblings_computed :
    ((∀ m ∈ allMethods, ∀ a ∈ builtRoutes siblings m, ∀ b ∈ builtRoutes siblings m,
        rename (tokens a.1) (tokens b.1) = tokens b.1) ∧
      ∀ a ∈ siblings, (paramNames (tokens a.path)).length ≤ maxParams) ∧
    ((register siblings).lookup (ascii "GET") (ascii "/a/7") = .found 2 [(ascii "x", ascii "7")] ∧
      (register siblings).build.lookup (ascii "GET") (ascii "/a/7") = .found 2 [(ascii "x", ascii "7")] ∧
      (register siblings).build.lookup (ascii "HEAD") (ascii "/a/7") = .found 2 [(ascii "x", ascii "7")] ∧
      (register siblings).build.lookup (ascii "POST") (ascii "/a/7") =
        .methodNotAllowed [.get, .head, .options]) ∧
    ((register siblings).build.mayMatch (ascii "/a/7") = true ∧
      allMethods.all (fun m => ((register siblings).build.trees m).all fun t =>
        t.covers (ascii "/a/7") && (t.root.catchAll.isNone || ascii "/a/7" ≠ t.root.path)) = true) ∧
    tokens (ascii "/a/:x") = (ascii "/a/").map .byte ++ [.param (ascii "x")] ∧
    hasStaticParamSiblings (trieOf (routesFor siblings .get)) = true ∧
      visits (trieOf (routesFor siblings .get)) (ascii "/a/7") ≤ routerBacktrackBudget ∧
      ascii "/a/7" ≠ (collapseRoot (trieOf (routesFor siblings .get))).path := by
  decide +kernel

/-- A method has a route, registered or implicit, that fits the path. -/
def Offers (regs : List (Registration H)) (m : Method) (path : Bytes) : Prop :=
  ∃ r ∈ builtRoutes regs m, Matches r.1 path

variable {regs : List (Registration H)}

theorem Offers.of_registered {g : Registration H} (hg : g ∈ regs)
    (h : Matches g.path path) : Offers regs g.method path :=
  ⟨_, mem_builtRoutes hg, h⟩

theorem Matches.of_erase {p p' : Bytes} (h : Matches p path)
    (heq : (tokens p').map Tok.erase = (tokens p).map Tok.erase) : Matches p' path := by
  obtain ⟨_, hcaps⟩ := h
  exact hcaps.erase heq

theorem Offers.registered (h : Offers regs m path) :
    ∃ g ∈ regs, (g.method = m ∨ m = .head ∧ g.method = .get) ∧ Matches g.path path := by
  obtain ⟨r, hr, hmatch⟩ := h
  obtain ⟨g, hg, hmethod, -, herase⟩ := builtRoutes_mem hr
  exact ⟨g, hg, hmethod, hmatch.of_erase herase⟩

theorem build_trees_some {t : BuiltTree H}
    (h : (register regs).build.trees m = some t) : t = buildTree (trieOf (builtRoutes regs m)) := by
  rw [build_trees] at h
  split_ifs at h
  exact (Option.some.inj h).symm

theorem Offers.tree (h : Offers regs m path) :
    (register regs).build.trees m = some (buildTree (trieOf (builtRoutes regs m))) := by
  obtain ⟨r, hr, -⟩ := h
  rw [build_trees, if_neg]
  rw [List.isEmpty_iff]
  exact ne_nil_of_mem hr

/-- A path that a registered pattern fits, in a tree that covers it, gets the handler of such a
pattern. -/
theorem lookup_complete {regs : List (Registration H)} {m : Method} {path : Bytes}
    (hcov : ∀ t, (register regs).build.trees m = some t → t.Covers path)
    (hmatch : ∃ g ∈ regs, g.method = m ∧ Matches g.path path) :
    ∃ h ps, (register regs).build.lookup m.name path = .found h ps ∧
      ∃ g ∈ regs, (g.method = m ∨ m = .head ∧ g.method = .get) ∧ g.handler = h ∧ Matches g.path path := by
  obtain ⟨g, hg, rfl, hfits⟩ := hmatch
  have hoffers := Offers.of_registered hg hfits
  have htree := hoffers.tree
  obtain ⟨hwf, hpath⟩ := trieOf_wf (builtRoutes regs g.method)
  have hsome := (findBuiltOrBacktrack_iff (hcov _ htree)).mpr hoffers
  obtain ⟨found, hfind⟩ := isSome_iff_exists.mp (find_of_findBuiltOrBacktrack hsome)
  refine ⟨found.1, found.2, ?_, ?_⟩
  · rw [lookup_name]
    exact lookupBuilt_found.mpr ⟨_, htree, hfind⟩
  have hfinds : Finds (trieOf (builtRoutes regs g.method)) path [] found := by
    rcases find_finds hwf hpath hfind with hfinds | hempty
    · exact hfinds
    · -- the walk or the search comes before the root's catch-all
      obtain ⟨_, hfound'⟩ := isSome_iff_exists.mp hsome
      unfold BuiltTree.find at hfind
      rcases hstatic : (buildTree (trieOf (builtRoutes regs g.method))).findStatic path with _ | e
      · rw [hstatic, hfound'] at hfind
        cases hfind
        exact findBuiltOrBacktrack_finds hwf hpath hfound'
      obtain ⟨q, -, -, rfl⟩ := hempty
      rw [hstatic] at hfind
      cases congrArg Prod.snd (Option.some.inj hfind)
  obtain ⟨_, ps, hh, hcaps, -⟩ := hfinds
  obtain ⟨p, hp, herase⟩ := trieOf_holds_erase hh
  obtain ⟨g', hg', hmethod, hhandler, herase'⟩ := builtRoutes_mem hp
  exact ⟨g', hg', hmethod, hhandler, hcaps.erase (herase'.trans herase)⟩

/-- A catch-all below the root and above a node that two longer routes share. -/
def sharedRoutes : List (Registration ℕ) :=
  [⟨.get, ascii "/z", 0⟩, ⟨.get, ascii "/a/*rest", 1⟩, ⟨.get, ascii "/a/bc", 2⟩, ⟨.get, ascii "/a/bd", 3⟩]

def emptySegmentRoutes : List (Registration ℕ) := [⟨.get, ascii "/a/:x/b", 1⟩, ⟨.get, ascii "/a/*rest", 2⟩]

/-- The walk for `/a/b` ends on the node that the two longer routes share and forgets the
catch-all; the parameter takes an empty segment before the catch-all is tried. -/
theorem matched_path_missed : ((register sharedRoutes).build.lookup (ascii "GET") (ascii "/a/b") = .notFound ∧
      Matches (ascii "/a/*rest") (ascii "/a/b")) ∧
    (register emptySegmentRoutes).build.lookup (ascii "GET") (ascii "/a//b") = .found 1 [(ascii "x", [])] := by
  refine ⟨⟨by decide +kernel, [(ascii "rest", ascii "b")], ?_⟩, by decide +kernel⟩
  have htokens : tokens (ascii "/a/*rest") = (ascii "/a/").map .byte ++ [.catchAll (ascii "rest")] := by decide +kernel
  rw [htokens]
  exact (@Captures.catchAll true (ascii "rest") (ascii "b") (by decide)).bytes (ascii "/a/")

def BuiltTree.NoEmptyCatch (t : BuiltTree H) (path : Bytes) : Prop := t.root.catchAll.isSome = true → path ≠ t.root.path

def CoversAll (regs : List (Registration H)) (path : Bytes) : Prop :=
  ∀ m t, (register regs).build.trees m = some t → t.Covers path ∧ t.NoEmptyCatch path

theorem mem_allMethods (m : Method) : m ∈ allMethods ∧ m ∈ allowOrder := by
  cases m <;> decide

theorem coversAll_sound (h : allMethods.all (fun m => ((register regs).build.trees m).all fun t =>
      t.covers path && (t.root.catchAll.isNone || path ≠ t.root.path)) = true) : CoversAll regs path := by
  intro m t htree
  have hm := all_eq_true.mp h m (mem_allMethods m).1
  rw [htree, all_some, Bool.and_eq_true, Bool.or_eq_true, decide_eq_true_iff] at hm
  refine ⟨covers_sound hm.1, fun hsome => ?_⟩
  rcases hm.2 with hnone | hne
  · rw [isNone_iff_eq_none.mp hnone] at hsome
    cases hsome
  · exact hne

theorem siblings_covered : CoversAll siblings (ascii "/a/7") := coversAll_sound siblings_computed.2.2.1.2

theorem lookup_complete_param : ∃ h ps,
    (register siblings).build.lookup Method.get.name (ascii "/a/7") = .found h ps ∧
    ∃ g ∈ siblings, (g.method = .get ∨ Method.get = .head ∧ g.method = .get) ∧ g.handler = h ∧
      Matches g.path (ascii "/a/7") := by
  obtain ⟨-, -, -, htokens, -⟩ := siblings_computed
  have hparam := @Captures.param true (ascii "x") (ascii "7") [] [] (by decide) .nil
  refine lookup_complete (fun t ht => (siblings_covered .get t ht).1) ⟨⟨.get, ascii "/a/:x", 2⟩, ?_, rfl, ?_⟩
  · exact mem_cons_of_mem _ mem_cons_self
  · refine ⟨[(ascii "x", ascii "7")], ?_⟩
    rw [htokens]
    exact hparam.bytes (ascii "/a/")

theorem find_iff {routes : List (Bytes × H)} (hcov : (buildTree (trieOf routes)).Covers path)
    (hcatch : (buildTree (trieOf routes)).NoEmptyCatch path) :
    ((buildTree (trieOf routes)).find path).isSome = true ↔ ∃ r ∈ routes, Matches r.1 path := by
  obtain ⟨hwf, hpath⟩ := trieOf_wf routes
  constructor
  · intro hsome
    obtain ⟨_, hfind⟩ := isSome_iff_exists.mp hsome
    rcases find_finds hwf hpath hfind with ⟨_, _, hh, hcaps, -⟩ | ⟨q, hq, heq, -⟩
    · obtain ⟨p, hp, herase⟩ := trieOf_holds_erase hh
      exact ⟨_, hp, hcaps.erase herase⟩
    · exact absurd heq (hcatch (by rw [isSome_iff_exists]; exact ⟨q, hq⟩))
  intro hmatch
  exact find_of_findBuiltOrBacktrack ((findBuiltOrBacktrack_iff hcov).mpr hmatch)

theorem serves_iff {routes : List (Bytes × H)} (hcov : (buildTree (trieOf routes)).Covers path)
    (hcatch : (buildTree (trieOf routes)).NoEmptyCatch path) :
    (buildTree (trieOf routes)).serves path = true ↔ ∃ r ∈ routes, Matches r.1 path := by
  unfold BuiltTree.serves
  rw [Bool.or_eq_true, findBuiltOrBacktrack_iff hcov, Bool.and_eq_true, or_iff_right_iff_imp]
  rintro ⟨hsome, hpre⟩
  obtain ⟨hwf, hpath⟩ := trieOf_wf routes
  obtain ⟨q, hq⟩ := isSome_iff_exists.mp hsome
  obtain ⟨rest, hrest⟩ := isPrefixOf_iff_prefix.mp hpre
  have hne : rest ≠ [] := by
    rintro rfl
    rw [append_nil] at hrest
    exact hcatch hsome hrest.symm
  have hfinds := Finds.of_collapseRoot hwf hpath (Finds.catchAll (n := collapseRoot (trieOf routes)) hq hne [])
  obtain ⟨_, _, hh, hcaps, -⟩ := hfinds
  obtain ⟨p, hp, herase⟩ := trieOf_holds_erase hh
  have hfull : (collapseRoot (trieOf routes)).path ++ rest = path := hrest
  rw [hfull] at hcaps
  exact ⟨_, hp, hcaps.erase herase⟩

theorem CoversAll.serves (hcov : CoversAll regs path) (m : Method) :
    ((register regs).build.trees m).any (·.serves path) = true ↔ Offers regs m path := by
  rcases htree : (register regs).build.trees m with _ | t
  · constructor
    · exact fun h => by cases h
    intro hoffers
    rw [hoffers.tree] at htree
    cases htree
  obtain rfl := build_trees_some htree
  obtain ⟨hc, hcatch⟩ := hcov m _ htree
  exact serves_iff hc hcatch

theorem CoversAll.found (hcov : CoversAll regs path) (m : Method) :
    (∃ h ps, (register regs).build.lookup m.name path = .found h ps) ↔ Offers regs m path := by
  constructor
  · rintro ⟨h, ps, hfound⟩
    rw [lookup_name] at hfound
    obtain ⟨t, htree, hfind⟩ := lookupBuilt_found.mp hfound
    obtain ⟨hc, hcatch⟩ := hcov m t htree
    obtain rfl := build_trees_some htree
    exact (find_iff hc hcatch).mp (by rw [hfind]; rfl)
  intro hoffers
  have htree := hoffers.tree
  obtain ⟨hc, hcatch⟩ := hcov m _ htree
  obtain ⟨found, hfind⟩ := isSome_iff_exists.mp ((find_iff hc hcatch).mpr hoffers)
  refine ⟨found.1, found.2, ?_⟩
  rw [lookup_name]
  exact lookupBuilt_found.mpr ⟨_, htree, hfind⟩

theorem mayMatch_sound (hmay : (register regs).build.mayMatch path = false)
    (hroots : ∀ m t, (register regs).build.trees m = some t → t.root.path = [slash]) (m : Method) :
    ¬ Offers regs m path := by
  intro hoffers
  have htree := hoffers.tree
  obtain ⟨hwf, hpath⟩ := trieOf_wf (builtRoutes regs m)
  have hroot : (collapseRoot (trieOf (builtRoutes regs m))).path = [slash] := hroots m _ htree
  obtain ⟨r, hr, _, hcaps⟩ := hoffers
  obtain ⟨ts, h, hh, herase⟩ := trieOf_has hr
  obtain ⟨_, hcaps'⟩ := hcaps.erase herase
  obtain ⟨_, rest, rfl, hh', hrest⟩ := holds_collapseRoot hpath hh hcaps'
  rw [hroot] at hmay
  rcases rest with _ | ⟨c, rest⟩
  · cases hmay
  have hvalid : (register regs).build.validFirst c = false := hmay
  unfold Built.validFirst at hvalid
  rw [List.any_eq_false] at hvalid
  have hthis := hvalid m (mem_allMethods m).1
  rw [htree, any_some, Bool.not_eq_true, Bool.or_eq_false_iff, Bool.or_eq_false_iff] at hthis
  obtain ⟨⟨hparam, hcatch⟩, hchildren⟩ := hthis
  have hwf' := collapseRoot_wf hwf
  cases hh' with
  | here hn => cases hrest
  | @child _ child ts _ hc hh =>
    obtain ⟨_, htail, -⟩ := hrest.of_bytes
    have hhead : child.path.head? = some c := by
      obtain ⟨d, s, hcons⟩ := exists_cons_of_ne_nil (hwf'.child hc).1
      rw [hcons] at htail ⊢
      cases htail
      rfl
    rw [List.any_eq_false] at hchildren
    exact hchildren child hc (decide_eq_true hhead)
  | param hp _ =>
    have hsome : (collapseRoot (trieOf (builtRoutes regs m))).paramChild.isSome = false := hparam
    rw [hp] at hsome
    cases hsome
  | catchAll hq =>
    have hsome : (collapseRoot (trieOf (builtRoutes regs m))).catchAll.isSome = false := hcatch
    rw [hq] at hsome
    cases hsome

theorem methodMiss_spec (hcov : CoversAll regs path) (hno : ¬ Offers regs m path) :
    ((∀ i, ¬ Offers regs i path) → (register regs).build.methodMiss m path = .notFound) ∧
      ((∃ i, Offers regs i path) → ∃ allow, (register regs).build.methodMiss m path =
          (if m = .options then .autoOptions allow else .methodNotAllowed allow) ∧
        ∀ i, i ∈ allow ↔ i = .options ∨ Offers regs i path) := by
  have hallowed (i : Method) : i ∈ (register regs).build.allowed m path ↔ Offers regs i path := by
    unfold Built.allowed
    rw [mem_filter, Bool.and_eq_true, hcov.serves, decide_eq_true_iff]
    constructor
    · exact fun h => h.2.2
    intro hoffers
    refine ⟨(mem_allMethods i).1, ?_, hoffers⟩
    rintro rfl
    exact hno hoffers
  unfold Built.methodMiss
  constructor
  · intro hnone
    rw [if_pos]
    exact eq_nil_iff_forall_not_mem.mpr fun i hi => hnone i ((hallowed i).mp hi)
  rintro ⟨i, hi⟩
  rw [if_neg (ne_nil_of_mem ((hallowed i).mpr hi))]
  refine ⟨_, rfl, fun j => ?_⟩
  rw [mem_filter, decide_eq_true_iff, hallowed]
  constructor
  · exact fun h => h.2.symm
  · exact fun h => ⟨(mem_allMethods j).2, h.symm⟩

/-- Routes of GET that share more than the leading '/', beside a route of POST. -/
def sharedTextRoutes : List (Registration ℕ) :=
  [⟨.get, ascii "/api/x", 1⟩, ⟨.get, ascii "/api/y", 2⟩, ⟨.post, ascii "/z", 3⟩]

theorem offers_head_iff : Offers regs .head path ↔ (∃ g ∈ regs, g.method = .head ∧ Matches g.path path) ∨
      ∃ route ∈ (register regs).missingHEAD, Matches route.1 path := by
  constructor
  · rintro ⟨r, hr, hmatch⟩
    rcases mem_append.mp hr with hr | hr
    · obtain ⟨g, hg, hm, rfl⟩ := routesFor_mem hr
      exact .inl ⟨g, hg, hm, hmatch⟩
    · exact .inr ⟨r, hr, hmatch⟩
  rintro (⟨g, hg, hm, hmatch⟩ | ⟨route, hroute, hmatch⟩)
  · rw [← hm]
    exact .of_registered hg hmatch
  · exact ⟨route, mem_append_right _ hroute, hmatch⟩

theorem offers_iff_registered (hm : m ≠ .head) :
    Offers regs m path ↔ ∃ g ∈ regs, g.method = m ∧ Matches g.path path := by
  constructor
  · intro h
    obtain ⟨g, hg, hmethod, hmatch⟩ := h.registered
    exact ⟨g, hg, hmethod.resolve_right fun h => hm h.1, hmatch⟩
  rintro ⟨g, hg, rfl, hmatch⟩
  exact .of_registered hg hmatch

theorem missingHEAD_matches : (∃ route ∈ (register regs).missingHEAD, Matches route.1 path) ↔
    ∃ r ts, Stands (routesFor regs .get) r ts ∧ Matches r.1 path ∧
      findInTree (trieOf (routesFor regs .head)) (render ts) = none := by
  constructor
  · rintro ⟨route, hroute, hmatch⟩
    obtain ⟨⟨ts, hh, htext⟩, hnone⟩ := missingHEAD_iff.mp hroute
    obtain ⟨p, hs⟩ := holds_trieOf.mp hh
    rw [htext] at hmatch hnone
    refine ⟨_, ts, hs, hmatch.of_erase ?_, hnone⟩
    rw [tokens_render (trieOf_readable hh), hs.erase]
  · rintro ⟨r, ts, hs, hmatch, hnone⟩
    have hh := holds_trieOf.mpr ⟨r.1, hs⟩
    refine ⟨(render ts, r.2), missingHEAD_iff.mpr ⟨⟨ts, hh, rfl⟩, hnone⟩, hmatch.of_erase ?_⟩
    rw [tokens_render (trieOf_readable hh), hs.erase]

def catchAndParamRoutes : List (Registration ℕ) := [⟨.get, ascii "/a/*rest", 1⟩, ⟨.head, ascii "/a/:p", 2⟩]

theorem siblings_collapseRoot (root : Node H) :
    hasStaticParamSiblings (collapseRoot root) = hasStaticParamSiblings root := by
  rcases collapseRoot_cases root with heq | ⟨-, hparam, -, hone⟩
  · rw [heq]
  rw [Bool.eq_iff_iff, ← not_iff_not, Bool.not_eq_true, Bool.not_eq_true]
  constructor
  · intro h
    rw [hasStaticParamSiblings]
    simp only [Bool.or_eq_false_iff, List.any_eq_false]
    refine ⟨⟨by rw [hparam]; rfl, ?_⟩, ?_⟩
    · rintro ⟨c, hc⟩ -
      rw [hone] at hc
      obtain rfl := mem_singleton.mp hc
      rw [h]
      exact Bool.false_ne_true
    split
    · rename_i p hp
      rw [hparam] at hp
      cases hp
    · rfl
  intro h
  exact (siblings_false h).2.1 _ (by rw [hone]; exact mem_cons_self)

theorem backtracking_collapseRoot (hwf : root.WF) (hpath : root.path = [])
    (hbudget : visits root path ≤ routerBacktrackBudget) :
    findWithBacktracking (collapseRoot root) path = findWithBacktracking root path := by
  rcases collapseRoot_cases root with heq | ⟨hhandler, hparam, hcatch, hone⟩
  · rw [heq]
  have hmem := collapseRoot_mem hone
  unfold findWithBacktracking
  rw [hpath]
  change _ = (routeBacktrack root path [] routerBacktrackBudget).1
  split_ifs with hpre
  · obtain ⟨rest, rfl⟩ := isPrefixOf_iff_prefix.mp hpre
    obtain ⟨c, s, hcons⟩ := exists_cons_of_ne_nil (hwf.child hmem).1
    have hstatic := hwf.staticChildFor hmem rest
    rw [hcons, cons_append] at hstatic hbudget ⊢
    rw [visits_cons, hstatic, map_some, getD_some, ← cons_append, ← hcons, drop_left] at hbudget
    rw [routeBacktrack_cons, if_neg (by decide), hstatic, hparam, hcatch, map_some, getD_some,
      ← cons_append, ← hcons, drop_left]
    have hsame : (routeBacktrack (collapseRoot root) rest [] routerBacktrackBudget).1 =
        (routeBacktrack (collapseRoot root) rest [] (routerBacktrackBudget - 1)).1 :=
      routeBacktrack_enough [] (by omega) (by omega)
    rw [hsame]
    by_cases hsome : (routeBacktrack (collapseRoot root) rest [] (routerBacktrackBudget - 1)).1.isSome = true
    · rw [if_pos hsome]
    rw [if_neg hsome]
    exact not_isSome_iff_eq_none.mp hsome
  rcases path with _ | ⟨c, rest⟩
  · rw [routeBacktrack, hhandler]
    rfl
  have hstatic := Node.staticChildFor_only hone hpre
  rw [routeBacktrack_cons, if_neg (by decide), hstatic, hparam, hcatch]
  rfl

/-- Where the searches of an unbuilt and of a built tree agree: the budget covers the nodes on the way,
or else the walk does not end on a node without a handler; and the root's catch-all is not left with
nothing. -/
structure Node.Settled (root : Node H) (path : Bytes) : Prop where
  budget : hasStaticParamSiblings root = true → visits root path ≤ routerBacktrackBudget
  ends : hasStaticParamSiblings root = false → ¬ EndsBare root path
  catchAll : (collapseRoot root).catchAll.isSome = true → path ≠ (collapseRoot root).path

theorem rootCatch_tried (hwf : root.WF) (hpath : root.path = [])
    (hset : root.Settled path) (hnone : findInTreeOrBacktrack root path = none)
    (hpre : (collapseRoot root).path.isPrefixOf path = true) : (collapseRoot root).catchAll = none := by
  rcases hq : (collapseRoot root).catchAll with _ | q
  · rfl
  obtain ⟨rest, rfl⟩ := isPrefixOf_iff_prefix.mp hpre
  have hne : rest ≠ [] := by
    rintro rfl
    exact hset.catchAll (by rw [hq]; rfl) (append_nil _)
  have hholds : Holds (collapseRoot root) [.catchAll q.catchName] q.handler := .catchAll hq
  have hcaps : Captures true [.catchAll q.catchName] rest [(q.catchName, rest)] := .catchAll fun _ => hne
  obtain ⟨_, _, hh, hfits, -⟩ := Finds.of_collapseRoot hwf hpath
    (show Finds (collapseRoot root) rest [] (q.handler, record [] [(q.catchName, rest)]) from
      ⟨_, _, hholds, hcaps, rfl⟩)
  unfold findInTreeOrBacktrack at hnone
  cases hwalk : findInTree root ((collapseRoot root).path ++ rest) with
  | some found =>
    rw [hwalk] at hnone
    cases hnone
  | none =>
    rw [hwalk] at hnone
    cases hsib : hasStaticParamSiblings root with
    | true =>
      have hsome := routeBacktrack_complete hwf hh [] hfits (hset.budget hsib)
      unfold findWithBacktracking at hnone
      rw [hpath] at hnone
      split_ifs at hnone with hnil
      · change (routeBacktrack root ((collapseRoot root).path ++ rest) [] routerBacktrackBudget).1 = none at hnone
        rw [hnone] at hsome
        cases hsome
      · exact absurd (List.isPrefixOf_iff_prefix.mpr nil_prefix) hnil
    | false =>
      have hsome := walk_complete hwf hsib hh hfits (hset.ends hsib) [] none
      unfold findInTree at hwalk
      rw [hwalk] at hsome
      cases hsome

theorem find_buildTree (hwf : root.WF) (hpath : root.path = [])
    (hset : root.Settled path) : (buildTree root).find path = findInTreeOrBacktrack root path := by
  have hwalks := findBuilt_collapseRoot hwf hpath path
  unfold BuiltTree.find
  cases hstatic : (buildTree root).findStatic path with
  | some handler =>
    obtain ⟨rest, hrest, hs⟩ := collectStaticRoutes_mem (findStatic_mem hstatic)
    rw [nil_append] at hrest
    subst hrest
    have hpre : (collapseRoot root).path.isPrefixOf ((collapseRoot root).path ++ rest) = true :=
      isPrefixOf_iff_prefix.mpr (prefix_append _ _)
    have hwalk := hs.walk (collapseRoot_wf hwf) [] none
    unfold findBuilt at hwalks
    rw [if_pos hpre, drop_left, hwalk] at hwalks
    unfold findInTreeOrBacktrack
    rw [← hwalks]
  | none =>
    have hsame : findBuiltOrBacktrack (buildTree root) path = findInTreeOrBacktrack root path := by
      unfold findBuiltOrBacktrack findInTreeOrBacktrack buildTree
      rw [hwalks]
      cases hwalk : findInTree root path with
      | some found => rfl
      | none =>
        by_cases hback : hasStaticParamSiblings (collapseRoot root) = true
        · rw [if_pos hback]
          rw [siblings_collapseRoot] at hback
          exact backtracking_collapseRoot hwf hpath (hset.budget hback)
        rw [if_neg hback]
        rw [siblings_collapseRoot, Bool.not_eq_true] at hback
        unfold findWithBacktracking
        rw [hpath]
        split_ifs
        · exact (walk_none hback (hset.ends hback) hwalk [] _).symm
        · rfl
    rw [hsame]
    cases hfound : findInTreeOrBacktrack root path with
    | some found => rfl
    | none =>
      split_ifs with hpre
      · change (collapseRoot root).catchAll.map _ = none
        rw [rootCatch_tried hwf hpath hset hfound hpre]
        rfl
      · rfl

def rootCatchRoute : List (Registration ℕ) := [⟨.get, ascii "/*all", 1⟩]

theorem StaticAt.mem_collect {n : Node H} {rest : Bytes} {h : H} (hs : StaticAt n rest h) :
    ∀ before, (before ++ n.path ++ rest, h) ∈ collectStaticRoutes n before := by
  induction hs with
  | here hn =>
    intro before
    rw [collectStaticRoutes, hn, append_nil]
    exact mem_append_left _ mem_cons_self
  | @child n c rest h hc _ ih =>
    intro before
    rw [collectStaticRoutes, ← append_assoc]
    exact mem_append_right _ (mem_flatMap.mpr ⟨⟨c, hc⟩, mem_attach _ _, ih _⟩)

theorem Holds.staticAt {n : Node H} {ts : List Tok} {h : H} (hh : Holds n ts h) :
    ∀ {path : Bytes}, ts = path.map .byte → StaticAt n path h := by
  induction hh with
  | here hn =>
    intro path hts
    obtain rfl := map_eq_nil_iff.mp hts.symm
    exact .here hn
  | @child n c ts h hc _ ih =>
    intro path hts
    obtain ⟨s, _, rfl, hs, hrest⟩ := map_eq_append_iff.mp hts.symm
    obtain rfl : s = c.path := map_injective_iff.mpr (fun _ _ => Tok.byte.inj) hs
    exact .child hc (ih hrest.symm)
  | param | catchAll =>
    intro path hts
    cases path <;> cases hts

theorem staticAt_collapseRoot {root : Node H} (hpath : root.path = []) {path : Bytes} {h : H} :
    StaticAt root path h ↔ ∃ rest, path = (collapseRoot root).path ++ rest ∧ StaticAt (collapseRoot root) rest h := by
  rcases collapseRoot_cases root with heq | ⟨hhandler, -, -, hone⟩
  · rw [heq, hpath]
    simp
  constructor
  · intro hs
    cases hs with
    | here hn =>
      rw [hhandler] at hn
      cases hn
    | child hc hs =>
      rw [hone] at hc
      obtain rfl := mem_singleton.mp hc
      exact ⟨_, rfl, hs⟩
  rintro ⟨rest, rfl, hs⟩
  exact .child (collapseRoot_mem hone) hs

theorem eq_bytes_of_erase {path : Bytes} {ts : List Tok} (h : ts.map Tok.erase = (path.map Tok.byte).map Tok.erase) :
    ts = path.map Tok.byte := by
  induction path generalizing ts with
  | nil => exact map_eq_nil_iff.mp h
  | cons c path ih =>
    obtain ⟨t, ts, rfl, ht, hts⟩ := map_eq_cons_iff.mp h
    cases t with
    | byte b =>
      obtain rfl := Tok.byte.inj ht
      rw [ih hts, map_cons]
    | param | catchAll => cases ht

theorem findStatic_iff (routes : List (Bytes × H)) (path : Bytes) :
    ((buildTree (trieOf routes)).findStatic path).isSome ↔ tokens path = path.map .byte ∧ ∃ h, (path, h) ∈ routes := by
  have hpath := (trieOf_wf routes).2
  constructor
  · intro hsome
    obtain ⟨h, hfind⟩ := isSome_iff_exists.mp hsome
    obtain ⟨rest, hrest, hs⟩ := collectStaticRoutes_mem (findStatic_mem hfind)
    have hholds := ((staticAt_collapseRoot hpath).mpr ⟨rest, hrest, hs⟩).holds
    obtain ⟨p, hp, herase⟩ := trieOf_holds_erase hholds
    have htokens := eq_bytes_of_erase herase
    obtain rfl : p = path := by
      rw [← render_tokens p, htokens, ← append_nil (path.map _), render_bytes, render, flatMap_nil, append_nil]
    exact ⟨htokens, h, hp⟩
  rintro ⟨hstatic, h, hmem⟩
  obtain ⟨_, _, hholds, herase⟩ := trieOf_has hmem
  rw [hstatic] at herase
  obtain ⟨rest, hrest, hs⟩ := (staticAt_collapseRoot hpath).mp (hholds.staticAt (eq_bytes_of_erase herase))
  have hcollect := hs.mem_collect []
  rw [nil_append, ← hrest] at hcollect
  rw [BuiltTree.findStatic, buildTree, lookup_staticIndex, isSome_map, find?_isSome]
  exact ⟨_, hcollect, decide_eq_true rfl⟩

/-! ### Where parameters get their own names -/

/-- A path for a pattern: every parameter takes a colon, which no static text has. -/
def sample : List Tok → Bytes
  | [] => []
  | .byte c :: ts => c :: sample ts
  | .param _ :: ts => colon :: sample ts
  | .catchAll _ :: ts => star :: sample ts

theorem sample_bytes (s : Bytes) (ts : List Tok) : sample (s.map .byte ++ ts) = s ++ sample ts := by
  induction s with
  | nil => rfl
  | cons c s ih => exact congrArg (c :: ·) ih

theorem paramNames_bytes (s : Bytes) (ts : List Tok) : paramNames (s.map .byte ++ ts) = paramNames ts := by
  induction s with
  | nil => rfl
  | cons c s ih => exact ih

theorem Readable.of_bytes {s : Bytes} {ts : List Tok} (h : Readable (s.map .byte ++ ts)) :
    (∀ c ∈ s, isStatic c = true) ∧ Readable ts := by
  induction s with
  | nil => exact ⟨fun c hc => absurd hc not_mem_nil, h⟩
  | cons c s ih =>
    obtain ⟨hs, hts⟩ := ih h.2
    exact ⟨forall_mem_cons.mpr ⟨h.1, hs⟩, hts⟩

theorem colon_mem_sample {ts : List Tok} (hplain : ∀ name, .catchAll name ∉ ts) (hnames : paramNames ts ≠ []) :
    colon ∈ sample ts := by
  induction ts with
  | nil => exact absurd rfl hnames
  | cons t ts ih =>
    have hrest : ∀ name, .catchAll name ∉ ts := fun name hmem => hplain name (mem_cons_of_mem _ hmem)
    cases t with
    | byte c => exact mem_cons_of_mem _ (ih hrest hnames)
    | param _ => exact mem_cons_self
    | catchAll name => exact absurd mem_cons_self (hplain name)

theorem staticChildFor_colon {n : Node H} (hn : n.WF) (rest : Bytes) : n.staticChildFor (colon :: rest) = none := by
  rcases hchild : n.staticChildFor (colon :: rest) with _ | child
  · rfl
  obtain ⟨hmem, hpre⟩ := Node.staticChildFor_some hchild
  obtain ⟨hne, hstatic, -⟩ := hn.child hmem
  obtain ⟨b, s, hcons⟩ := exists_cons_of_ne_nil hne
  rw [hcons] at hpre hstatic
  obtain rfl : b = colon := (cons_prefix_cons.mp hpre).1
  exact absurd (hstatic colon mem_cons_self) (by decide)

theorem segment_sample {ts : List Tok} (h : ∀ t ∈ ts.head?, t = .byte slash) :
    segment (colon :: sample ts) = [colon] ∧ afterSegment (colon :: sample ts) = sample ts := by
  cases ts with
  | nil => exact ⟨rfl, rfl⟩
  | cons t ts =>
    obtain rfl := h t rfl
    exact ⟨rfl, rfl⟩

/-- The walk for the path of a route goes along the route. -/
theorem Holds.walk_sample {n : Node H} {ts : List Tok} {h : H} (hh : Holds n ts h) (hn : n.WF) (hread : Readable ts)
    (hplain : ∀ name, .catchAll name ∉ ts) (params : Params) (pending : Option (CatchAll H × Bytes × Params)) :
    ∃ ps, walk n (sample ts) params pending = some (h, record params ps) ∧ ps.map Prod.fst = paramNames ts := by
  induction hh generalizing params pending with
  | here hhandler =>
    refine ⟨[], ?_, rfl⟩
    rw [sample, walk, hhandler]
    rfl
  | @child n c ts h hc _ ih =>
    obtain ⟨hne, -, hwf⟩ := hn.child hc
    obtain ⟨b, s, hcons⟩ := exists_cons_of_ne_nil hne
    have hstatic := hn.staticChildFor hc (sample ts)
    have hrest : ∀ name, .catchAll name ∉ ts := fun name hmem => hplain name (mem_append_right _ hmem)
    rw [paramNames_bytes, sample_bytes]
    rw [hcons, cons_append] at hstatic ⊢
    rw [walk_cons, hstatic, elim_some, ← cons_append, ← hcons, drop_left]
    exact ih hwf hread.of_bytes.2 hrest _ _
  | @param n p ts h hp _ ih =>
    obtain ⟨-, hhead, hts⟩ := hread
    obtain ⟨hsegment, hafter⟩ := segment_sample hhead
    have hrest : ∀ name, .catchAll name ∉ ts := fun name hmem => hplain name (mem_cons_of_mem _ hmem)
    rw [sample, walk_cons, staticChildFor_colon hn, hp, elim_none, elim_some, hsegment, hafter]
    obtain ⟨ps, hwalk, hps⟩ := ih (hn.param hp) hts hrest (appendRouteParam params p.paramName [colon])
      ((n.catchAll.map (·, colon :: sample ts, params)).or pending)
    exact ⟨(p.paramName, [colon]) :: ps, hwalk, congrArg (p.paramName :: ·) hps⟩
  | catchAll _ => exact absurd mem_cons_self (hplain _)

theorem find_sample {routes : List (Bytes × H)} {ts : List Tok} {h : H} (hh : Holds (trieOf routes) ts h)
    (hplain : ∀ name, .catchAll name ∉ ts) (hnames : paramNames ts ≠ []) :
    ∃ ps, (buildTree (trieOf routes)).find (sample ts) = some (h, record [] ps) ∧ ps.map Prod.fst = paramNames ts := by
  obtain ⟨hwf, hpath⟩ := trieOf_wf routes
  obtain ⟨ps, hwalk, hps⟩ := hh.walk_sample hwf (trieOf_readable hh) hplain [] none
  refine ⟨ps, ?_, hps⟩
  have hstatic : (buildTree (trieOf routes)).findStatic (sample ts) = none := by
    rw [← Option.not_isSome_iff_eq_none, findStatic_iff]
    rintro ⟨htokens, -⟩
    have hread := tokens_readable (sample ts)
    rw [htokens, ← append_nil (map _ _)] at hread
    exact absurd (hread.of_bytes.1 colon (colon_mem_sample hplain hnames)) (by decide)
  have hfound : findBuiltOrBacktrack (buildTree (trieOf routes)) (sample ts) = some (h, record [] ps) := by
    unfold findBuiltOrBacktrack buildTree
    rw [findBuilt_collapseRoot hwf hpath, findInTree, hwalk]
  rw [BuiltTree.find, hstatic, hfound]

theorem record_length {params : Params} (h : params.length ≤ maxParams) (more : Params) :
    (record params more).length ≤ maxParams := by
  induction more generalizing params with
  | nil => exact h
  | cons p more ih =>
    refine @ih (appendRouteParam params p.1 p.2) ?_
    unfold appendRouteParam
    split_ifs with hroom
    · rw [length_append, length_singleton]
      omega
    · exact h

theorem paramNames_length (ts : List Tok) : (paramNames ts).length = (paramNames (ts.map Tok.erase)).length := by
  induction ts with
  | nil => rfl
  | cons t ts ih =>
    cases t with
    | byte c => exact ih
    | param | catchAll => exact congrArg (· + 1) ih

theorem eq_of_erase {ts us : List Tok} (h : ts.map Tok.erase = us.map Tok.erase)
    (hnames : paramNames ts = paramNames us) :
    ts = us := by
  induction ts generalizing us with
  | nil => exact (map_eq_nil_iff.mp h.symm).symm
  | cons t ts ih =>
    obtain ⟨u, us, rfl, hu, hus⟩ := map_eq_cons_iff.mp h.symm
    cases t with
    | byte c =>
      cases u with
      | byte d =>
        obtain rfl := Tok.byte.inj hu
        rw [ih hus.symm hnames]
      | param | catchAll => cases hu
    | param name =>
      cases u with
      | param name' =>
        obtain ⟨rfl, hrest⟩ := List.cons.inj hnames
        rw [ih hus.symm hrest]
      | byte | catchAll => cases hu
    | catchAll name =>
      cases u with
      | catchAll name' =>
        obtain ⟨rfl, hrest⟩ := List.cons.inj hnames
        rw [ih hus.symm hrest]
      | byte | param => cases hu

/-- With distinct handlers, a route that stands in a sound router has the names of its registration. -/
theorem Sound.stands (hsound : Sound regs) (hdistinct : (regs.map (·.handler)).Nodup) {r : Bytes × H} {ts : List Tok}
    (hs : Stands (builtRoutes regs m) r ts) (hplain : ∀ name, .catchAll name ∉ ts) :
    ∃ g ∈ regs, g.handler = r.2 ∧ ts = tokens g.path ∧ (paramNames ts).length ≤ maxParams := by
  obtain ⟨g, hg, -, hhandler, herase⟩ := builtRoutes_mem hs.mem
  have hsame := hs.erase.trans herase.symm
  have hlen : (paramNames ts).length = (paramNames (tokens g.path)).length := by
    rw [paramNames_length, hsame, ← paramNames_length]
  by_cases hnames : paramNames ts = []
  · refine ⟨g, hg, hhandler, eq_of_erase hsame ?_, by rw [hnames]; exact Nat.zero_le _⟩
    rw [hnames] at hlen ⊢
    exact (length_eq_zero_iff.mp hlen.symm).symm
  obtain ⟨ps, hfind, hps⟩ := find_sample (holds_trieOf.mpr ⟨r.1, hs⟩) hplain hnames
  have hne : ¬ (builtRoutes regs m).isEmpty = true := by
    rw [List.isEmpty_iff]
    exact ne_nil_of_mem hs.mem
  have hfound : (register regs).build.lookup m.name (sample ts) = .found r.2 (record [] ps) := by
    rw [lookup_name]
    exact lookupBuilt_found.mpr ⟨_, by rw [build_trees, if_neg hne], hfind⟩
  obtain ⟨g', hg', -, hhandler', -, hrecorded⟩ := hsound hfound
  obtain rfl : g' = g := inj_on_of_nodup_map hdistinct hg' hg (hhandler'.trans hhandler.symm)
  have hfew : ps.length ≤ maxParams := by
    have hle := @record_length [] (Nat.zero_le _) ps
    have hcount := congrArg length hrecorded
    have hcount' := congrArg length hps
    rw [length_map] at hcount hcount'
    omega
  rw [record_nil hfew, hps] at hrecorded
  refine ⟨g', hg, hhandler, eq_of_erase hsame hrecorded, ?_⟩
  rw [← hps, length_map]
  exact hfew

theorem Sound.namesKept (hsound : Sound regs) (hdistinct : (regs.map (·.handler)).Nodup)
    (hplain : ∀ g ∈ regs, ∀ name, .catchAll name ∉ tokens g.path) : NamesKept regs := by
  have hno {m : Method} {r : Bytes × H} {ts : List Tok} (hs : Stands (builtRoutes regs m) r ts) :
      ∀ name, .catchAll name ∉ ts := by
    intro name hmem
    obtain ⟨g, hg, -, -, herase⟩ := builtRoutes_mem hs.mem
    have hcatch : Tok.catchAll [] ∈ (tokens g.path).map Tok.erase := by
      rw [herase, ← hs.erase]
      exact mem_map_of_mem (f := Tok.erase) hmem
    obtain ⟨t, ht, heq⟩ := mem_map.mp hcatch
    cases t with
    | byte | param => cases heq
    | catchAll name' => exact hplain g hg name' ht
  constructor
  · intro m r ts hs
    obtain ⟨g, hg, hhandler, hts, -⟩ := hsound.stands hdistinct hs (hno hs)
    have hsame {g' : Registration H} (hg' : g' ∈ regs) (h : g'.handler = r.2) : g' = g :=
      inj_on_of_nodup_map hdistinct hg' hg (h.trans hhandler.symm)
    rw [hts]
    rcases mem_append.mp hs.mem with hr | hr
    · obtain ⟨g', hg', -, rfl⟩ := routesFor_mem hr
      rw [hsame hg' rfl]
    split_ifs at hr with hhead
    · -- an implicit route has the text of a GET route that stands
      obtain ⟨⟨us, hh, htext⟩, -⟩ := missingHEAD_iff.mp hr
      obtain ⟨p, hs'⟩ := holds_trieOf.mp hh
      rw [← builtRoutes_get] at hs'
      obtain ⟨g', hg', hhandler', hus, -⟩ := hsound.stands hdistinct hs' (hno hs')
      rw [htext, hus, render_tokens, hsame hg' hhandler']
    · cases hr
  · intro a ha
    obtain ⟨ts, h, hh, herase⟩ := trieOf_has (mem_builtRoutes ha)
    obtain ⟨p, hs⟩ := holds_trieOf.mp hh
    obtain ⟨-, -, -, -, hfits⟩ := hsound.stands hdistinct hs (hno hs)
    rw [paramNames_length, ← herase, ← paramNames_length]
    exact hfits

def renamingRoutes : List (Registration ℕ) := [⟨.get, ascii "/a/:x", 1⟩, ⟨.get, ascii "/a/:y/b", 2⟩]

/-- After `Build` the probe of a static index ends within one round, and it has a handler, that of the
walk, exactly for the method's routes without parameters. -/
theorem static_index_exact (regs : List (Registration H)) (m : Method) (path : Bytes) :
    let tree := (register regs).build.trees m
    let handler := tree.bind (·.findStatic path)
    (handler.isSome ↔ tokens path = path.map .byte ∧ ∃ h, (path, h) ∈ builtRoutes regs m) ∧
    (∀ h, handler = some h → (tree.bind fun t => findBuilt t.root path) = some (h, [])) ∧
    ∀ t ∈ tree, t.statics ≠ [] → ∃ q, (pathQuickHash path).toNat ≤ q ∧
      q < (pathQuickHash path).toNat + t.statics.length ∧ Data.Probing.slot t.statics q = none := by
  intro tree handler
  have htree : tree = _ := build_trees regs m
  by_cases hempty : (builtRoutes regs m).isEmpty
  · simp [handler, htree, List.isEmpty_iff.mp hempty]
  rw [if_neg hempty] at htree
  have hhandler : handler = (buildTree (trieOf (builtRoutes regs m))).findStatic path := by
    simp only [handler, htree, bind_some]
  refine ⟨?_, ?_, ?_⟩
  · rw [hhandler]
    exact findStatic_iff _ path
  · intro h hfind
    rw [hhandler] at hfind
    obtain ⟨_, rfl, hs⟩ := collectStaticRoutes_mem (findStatic_mem hfind)
    rw [htree, bind_some, buildTree, findBuilt, nil_append, drop_left,
      if_pos ( isPrefixOf_iff_prefix.mpr (prefix_append _ _))]
    exact hs.walk (collapseRoot_wf (trieOf_wf _).1) [] none
  intro t ht hstatics
  rw [htree] at ht
  obtain rfl := Option.some.inj ht
  apply Data.Probing.exists_empty
  unfold buildTree staticIndex at hstatics ⊢
  dsimp only at hstatics ⊢
  split_ifs at hstatics ⊢ with hsome
  · exact Data.Probing.none_mem_fill (length_lt_staticIndexSize hsome)
  · exact absurd rfl hstatics

end AlosHttp.Routing

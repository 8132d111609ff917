import AlosHttp.Data.Probing
import AlosHttp.Router.Search

/-! The router around its tries: registration, `Build` with the implicit HEAD routes, and `Lookup`
before and after it. -/
namespace AlosHttp.Routing
open AlosHttp.Core Data
variable {H : Type}

inductive Method
  | get | post | put | delete | patch | head | options | connect | trace
  deriving DecidableEq

def allMethods : List Method := [.get, .post, .put, .delete, .patch, .head, .options, .connect, .trace]

def Method.name : Method → Bytes
  | .get => ascii "GET"
  | .post => ascii "POST"
  | .put => ascii "PUT"
  | .delete => ascii "DELETE"
  | .patch => ascii "PATCH"
  | .head => ascii "HEAD"
  | .options => ascii "OPTIONS"
  | .connect => ascii "CONNECT"
  | .trace => ascii "TRACE"

def methodIndex (method : Bytes) : Option Method := allMethods.find? (·.name = method)

/-- A call of `Handle`; calls with another method change nothing. -/
structure Registration (H : Type) where
  method : Method
  path : Bytes
  handler : H

structure Router (H : Type) where
  trees : Method → Option (Node H)

def newRouter : Router H := ⟨fun _ => none⟩

def Router.handle (r : Router H) (g : Registration H) : Router H :=
  ⟨fun m => if m = g.method then some (addRoute ((r.trees m).getD {}) g.path g.handler) else r.trees m⟩

def register (regs : List (Registration H)) : Router H := regs.foldl Router.handle newRouter

def walkRoutes (n : Node H) (before : Bytes) : List (Bytes × H) :=
  let fullPath := before ++ n.path
  (n.handler.map (fullPath, ·)).toList ++ (n.children.attach.flatMap fun c => walkRoutes c.1 fullPath) ++
    (match _param : n.paramChild with
      | some p => walkRoutes p (fullPath ++ colon :: p.paramName)
      | none => []) ++
    (n.catchAll.map fun q => (fullPath ++ star :: q.catchName, q.handler)).toList
termination_by sizeOf n
decreasing_by
  · exact Node.sizeOf_child c.2
  · exact Node.sizeOf_param _param

def Router.missingHEAD (r : Router H) : List (Bytes × H) :=
  match r.trees .get with
  | none => []
  | some get => (walkRoutes get []).filter fun route =>
      match r.trees .head with
      | none => true
      | some head => (findInTree head route.1).isNone

def Router.addImplicitHEAD (r : Router H) : Router H :=
  r.missingHEAD.foldl (fun r route => r.handle ⟨.head, route.1, route.2⟩) r

def collectStaticRoutes (n : Node H) (before : Bytes) : List (Bytes × H) :=
  let fullPath := before ++ n.path
  (n.handler.map (fullPath, ·)).toList ++ n.children.attach.flatMap fun c => collectStaticRoutes c.1 fullPath
termination_by sizeOf n
decreasing_by exact Node.sizeOf_child c.2

def collapseRoot (root : Node H) : Node H :=
  if root.path = [] ∧ root.handler.isNone ∧ root.paramChild.isNone ∧ root.catchAll.isNone then
    match root.children with
    | [child] => child
    | _ => root
  else root

def pathQuickHash (s : Bytes) : UInt32 :=
  let l := UInt32.ofNat s.length
  if l < 2 then l * 0x9E3779B9 ||| 0x80000000
  else
    let h := (l ^^^ (s.getD 1 0).toUInt32) * 0x9E3779B9
    let h := (h ^^^ (s.getD (l.toNat - 1) 0).toUInt32) * 0x9E3779B9
    let h := if l > 3 then (h ^^^ (s.getD (l.toNat / 2) 0).toUInt32) * 0x9E3779B9 else h
    h ||| 0x80000000

/-- The loop that doubles the size of the static index until half of it is enough. -/
def staticIndexSize (entries : ℕ) : ℕ → ℕ → ℕ
  | 0, sz => sz
  | fuel + 1, sz => if sz < entries * 2 then staticIndexSize entries fuel (sz * 2) else sz

/-- The static index; a slot whose hash is 0 in the source is an empty one here. -/
def staticIndex (statics : List (Bytes × H)) : List (Option (Bytes × H)) :=
  if statics.length > 0 then
    Probing.fill (fun path => (pathQuickHash path).toNat)
      (staticIndexSize statics.length (statics.length * 2) 16) statics
  else []

/-- A tree behind `build`: its root, the flag of the root and the static index. -/
structure BuiltTree (H : Type) where
  root : Node H
  backtrackable : Bool
  statics : List (Option (Bytes × H))

def buildTree (root : Node H) : BuiltTree H :=
  let root := collapseRoot root
  ⟨root, hasStaticParamSiblings root, staticIndex (collectStaticRoutes root [])⟩

def BuiltTree.findStatic (t : BuiltTree H) (path : Bytes) : Option H :=
  Probing.lookup (fun path => (pathQuickHash path).toNat) t.statics path

open List

theorem le_staticIndexSize {entries fuel sz : ℕ} (hpos : 0 < sz) (hfuel : entries * 2 ≤ sz + fuel) :
    entries * 2 ≤ staticIndexSize entries fuel sz := by
  induction fuel generalizing sz with
  | zero => exact hfuel
  | succ fuel ih =>
    rw [staticIndexSize]
    split_ifs with hsmall
    · exact ih (by omega) (by omega)
    · omega

theorem length_lt_staticIndexSize {entries : ℕ} (h : 0 < entries) :
    entries < staticIndexSize entries (entries * 2) 16 := by
  have hsize := @le_staticIndexSize entries (entries * 2) 16 (by decide) (by omega)
  omega

theorem lookup_staticIndex (statics : List (Bytes × H)) (path : Bytes) :
    Probing.lookup (fun path => (pathQuickHash path).toNat) (staticIndex statics) path =
      (statics.find? fun e => e.1 = path).map Prod.snd := by
  unfold staticIndex
  split_ifs with hsome
  · exact Probing.lookup_fill (length_lt_staticIndexSize hsome) path
  have hnil : statics = [] := length_eq_zero_iff.mp (by omega)
  rw [hnil]
  rfl

theorem findStatic_mem {root : Node H} {path : Bytes} {h : H} (hfind : (buildTree root).findStatic path = some h) :
    (path, h) ∈ collectStaticRoutes (collapseRoot root) [] := by
  have hlist := (lookup_staticIndex _ path).symm.trans hfind
  obtain ⟨e, he, rfl⟩ := Option.map_eq_some_iff.mp hlist
  have hkey : e.1 = path := by simpa using find?_some he
  rw [← hkey]
  exact mem_of_find?_eq_some he

structure Built (H : Type) where
  trees : Method → Option (BuiltTree H)

def Router.build (r : Router H) : Built H := ⟨fun m => (r.addImplicitHEAD.trees m).map buildTree⟩

def Built.validFirst (b : Built H) (c : UInt8) : Bool := allMethods.any fun m => (b.trees m).any fun t =>
    t.root.paramChild.isSome || t.root.catchAll.isSome || t.root.children.any fun child => child.path.head? = some c

def findBuiltOrBacktrack (t : BuiltTree H) (path : Bytes) : Option (H × Params) :=
  match findBuilt t.root path with
  | some found => some found
  | none => if t.backtrackable then findWithBacktracking t.root path else none

inductive Answer (H : Type)
  | found (handler : H) (params : Params)
  | notFound
  | methodNotAllowed (allow : List Method)
  | autoOptions (allow : List Method)
  deriving DecidableEq

def allowOrder : List Method := [.connect, .delete, .get, .head, .options, .patch, .post, .put, .trace]

def BuiltTree.serves (t : BuiltTree H) (path : Bytes) : Bool :=
  t.root.catchAll.isSome && t.root.path.isPrefixOf path || (findBuiltOrBacktrack t path).isSome

def Built.allowed (b : Built H) (m : Method) (path : Bytes) : List Method :=
  allMethods.filter fun i => i ≠ m && (b.trees i).any (·.serves path)

def Built.methodMiss (b : Built H) (m : Method) (path : Bytes) : Answer H :=
  let allowed := b.allowed m path
  if allowed = [] then .notFound
  else
    let allow := allowOrder.filter fun i => i ∈ allowed ∨ i = .options
    if m = .options then .autoOptions allow else .methodNotAllowed allow

/-- The handler of the method's own tree: the static index, the walk, the search with
backtracking and last the root's catch-all. -/
def BuiltTree.find (t : BuiltTree H) (path : Bytes) : Option (H × Params) :=
  match t.findStatic path with
  | some h => some (h, [])
  | none =>
    match findBuiltOrBacktrack t path with
    | some found => some found
    | none =>
      if t.root.path.isPrefixOf path then
        t.root.catchAll.map fun q => (q.handler, appendRouteParam [] q.catchName (path.drop t.root.path.length))
      else none

/-- The second byte of a path, where it has one, is looked up in `validFirst`. -/
def Built.mayMatch (b : Built H) : Bytes → Bool
  | _ :: c :: _ => b.validFirst c
  | _ => true

def Built.lookupBuilt (b : Built H) (m : Method) (path : Bytes) : Answer H :=
  match b.trees m with
  | none => b.methodMiss m path
  | some t =>
    match t.find path with
    | some found => .found found.1 found.2
    | none => if b.mayMatch path then b.methodMiss m path else .notFound

def Built.lookup (b : Built H) (method path : Bytes) : Answer H :=
  match methodIndex method with
  | none => .notFound
  | some m => b.lookupBuilt m path

def findInTreeOrBacktrack (root : Node H) (path : Bytes) : Option (H × Params) :=
  match findInTree root path with
  | some found => some found
  | none => findWithBacktracking root path

def Router.lookup (r : Router H) (method path : Bytes) : Answer H :=
  match methodIndex method with
  | none => .notFound
  | some m =>
    match (r.trees m).bind fun root => findInTreeOrBacktrack root path with
    | some found => .found found.1 found.2
    | none => .notFound

def trieOf (routes : List (Bytes × H)) : Node H := routes.foldl (fun n r => addRoute n r.1 r.2) {}

variable (routes : List (Bytes × H))

theorem trieOf_concat (r : Bytes × H) : trieOf (routes ++ [r]) = addRoute (trieOf routes) r.1 r.2 := by
  unfold trieOf
  rw [foldl_append]
  rfl

theorem trieOf_wf : (trieOf routes).WF ∧ (trieOf routes).path = [] := by
  induction routes using reverseRecOn with
  | nil => exact ⟨wf_bare [], rfl⟩
  | append_singleton routes r ih =>
    rw [trieOf_concat, addRoute_path]
    exact ⟨addRoute_wf ih.1 _ _, ih.2⟩

theorem erase_rename (us : List Tok) : ∀ ts : List Tok, (rename us ts).map Tok.erase = ts.map Tok.erase := by
  induction us with
  | nil =>
    intro ts
    rw [rename_nil]
  | cons u us ih =>
    intro ts
    rcases ts with _ | ⟨t, ts⟩
    · cases u <;> rfl
    cases u with
    | byte a =>
      cases t with
      | byte b =>
        rw [rename]
        split_ifs
        · rw [map_cons, map_cons, ih]
        · rfl
      | param | catchAll => rfl
    | param a =>
      cases t with
      | byte | catchAll => rfl
      | param b =>
        rw [rename, map_cons, map_cons, ih]
        rfl
    | catchAll a => rw [rename_catchAll]

theorem trieOf_has {routes : List (Bytes × H)} {r : Bytes × H} (hr : r ∈ routes) :
    ∃ ts h, Holds (trieOf routes) ts h ∧ ts.map Tok.erase = (tokens r.1).map Tok.erase := by
  induction routes using reverseRecOn with
  | nil => cases hr
  | append_singleton routes last ih =>
    rw [trieOf_concat]
    have hwf := (trieOf_wf routes).1
    rcases mem_append.mp hr with hr | hr
    · obtain ⟨ts, h, hh, herase⟩ := ih hr
      obtain ⟨ts', h', hh', herase'⟩ := hh.addRoute hwf last.1 last.2
      exact ⟨ts', h', hh', herase'.trans herase⟩
    obtain rfl := mem_singleton.mp hr
    exact ⟨_, _, holds_addRoute hwf _ _, rfl⟩

/-- The last registration of a pattern stands; those after it may give its parameters other
names. -/
def Stands (routes : List (Bytes × H)) (r : Bytes × H) (ts : List Tok) : Prop :=
  ∃ before after, routes = before ++ r :: after ∧
    (∀ a ∈ after, (tokens a.1).map Tok.erase ≠ (tokens r.1).map Tok.erase) ∧
    ts = after.foldl (fun ts a => rename (tokens a.1) ts) (tokens r.1)

section
variable {routes : List (Bytes × H)} {r last : Bytes × H} {ts : List Tok} {h : H}

theorem Stands.mem (hs : Stands routes r ts) : r ∈ routes := by
  obtain ⟨_, _, rfl, -, -⟩ := hs
  exact mem_append_right _ mem_cons_self

theorem Stands.erase (hs : Stands routes r ts) : ts.map Tok.erase = (tokens r.1).map Tok.erase := by
  obtain ⟨_, after, -, -, rfl⟩ := hs
  induction after using reverseRecOn with
  | nil => rfl
  | append_singleton after a ih => rw [foldl_append, foldl_cons, foldl_nil, erase_rename, ih]

theorem stands_concat : Stands (routes ++ [last]) r ts ↔ r = last ∧ ts = tokens last.1 ∨
    ∃ old, Stands routes r old ∧ old.map Tok.erase ≠ (tokens last.1).map Tok.erase ∧
      ts = rename (tokens last.1) old := by
  constructor
  · rintro ⟨before, after, heq, hlast, rfl⟩
    induction after using reverseRecOn with
    | nil =>
      obtain ⟨-, hr⟩ := append_inj' heq rfl
      cases hr
      exact .inl ⟨rfl, rfl⟩
    | append_singleton after a _ =>
      rw [← cons_append, ← append_assoc] at heq
      obtain ⟨rfl, ha⟩ := append_inj' heq rfl
      cases ha
      obtain ⟨hafter, ha⟩ := forall_mem_append.mp hlast
      have hs : Stands (before ++ r :: after) r (after.foldl (fun ts a => rename (tokens a.1) ts) (tokens r.1)) :=
        ⟨before, after, rfl, hafter, rfl⟩
      refine .inr ⟨_, hs, ?_, by rw [foldl_append, foldl_cons, foldl_nil]⟩
      rw [hs.erase]
      exact (ha last mem_cons_self).symm
  rintro (⟨rfl, rfl⟩ | ⟨old, hs, hne, rfl⟩)
  · exact ⟨routes, [], rfl, fun a ha => absurd ha not_mem_nil, rfl⟩
  rw [hs.erase] at hne
  obtain ⟨before, after, rfl, hafter, rfl⟩ := hs
  refine ⟨before, after ++ [last], by rw [append_assoc, cons_append], ?_, by rw [foldl_append, foldl_cons, foldl_nil]⟩
  rw [forall_mem_append]
  exact ⟨hafter, fun a ha => by rw [mem_singleton.mp ha]; exact hne.symm⟩

/-- The routes of a trie are the registrations that stand, under the names that they have in the end. -/
theorem holds_trieOf : Holds (trieOf routes) ts h ↔ ∃ p, Stands routes (p, h) ts := by
  induction routes using reverseRecOn generalizing ts h with
  | nil =>
    refine iff_of_false not_holds_bare ?_
    rintro ⟨p, hs⟩
    cases hs.mem
  | append_singleton routes last ih =>
    obtain ⟨hwf, -⟩ := trieOf_wf routes
    have hnew := holds_addRoute hwf last.1 last.2
    have hwf' := addRoute_wf hwf last.1 last.2
    simp only [trieOf_concat, stands_concat]
    constructor
    · intro hh
      by_cases herase : ts.map Tok.erase = (tokens last.1).map Tok.erase
      · obtain ⟨rfl, rfl⟩ := hh.unique hwf' hnew herase
        exact ⟨last.1, .inl ⟨rfl, rfl⟩⟩
      rcases hh.of_addRoute hwf with ⟨rfl, -⟩ | ⟨old, hold, rfl⟩
      · exact absurd rfl herase
      obtain ⟨p, hs⟩ := ih.mp hold
      rw [erase_rename] at herase
      exact ⟨p, .inr ⟨old, hs, herase, rfl⟩⟩
    rintro ⟨p, ⟨rfl, rfl⟩ | ⟨old, hs, hne, rfl⟩⟩
    · exact hnew
    -- the old route is still there, and what is there for its pattern is the old route renamed
    have hold := ih.mpr ⟨p, hs⟩
    obtain ⟨ts', h', hh', herase'⟩ := hold.addRoute hwf last.1 last.2
    rcases hh'.of_addRoute hwf with ⟨rfl, -⟩ | ⟨old', hold', rfl⟩
    · exact absurd herase'.symm hne
    rw [erase_rename] at herase'
    obtain ⟨rfl, rfl⟩ := hold'.unique hwf hold herase'
    exact hh'

theorem trieOf_holds_erase (hh : Holds (trieOf routes) ts h) :
    ∃ p, (p, h) ∈ routes ∧ (tokens p).map Tok.erase = ts.map Tok.erase := by
  obtain ⟨p, hs⟩ := holds_trieOf.mp hh
  exact ⟨p, hs.mem, hs.erase.symm⟩

/-- Where no registration gives another's parameters new names, the names are the route's own. -/
theorem Stands.tokens_eq (hs : Stands routes r ts)
    (hnames : ∀ a ∈ routes, ∀ b ∈ routes, rename (tokens a.1) (tokens b.1) = tokens b.1) : ts = tokens r.1 := by
  have hmem := hs.mem
  obtain ⟨before, after, rfl, -, rfl⟩ := hs
  have hafter : ∀ a ∈ after, rename (tokens a.1) (tokens r.1) = tokens r.1 := fun a ha =>
    hnames a (mem_append_right _ (mem_cons_of_mem _ ha)) r hmem
  clear hnames hmem
  induction after with
  | nil => rfl
  | cons a after ih =>
    rw [foldl_cons, hafter a mem_cons_self]
    exact ih fun b hb => hafter b (mem_cons_of_mem _ hb)

end

def routesFor (regs : List (Registration H)) (m : Method) : List (Bytes × H) :=
  (regs.filter fun g => g.method = m).map fun g => (g.path, g.handler)

def treeOf (routes : List (Bytes × H)) : Option (Node H) := if routes.isEmpty then none else some (trieOf routes)

theorem treeOf_concat (r : Bytes × H) : treeOf (routes ++ [r]) = some (addRoute ((treeOf routes).getD {}) r.1 r.2) := by
  unfold treeOf
  rw [if_neg (by simp), trieOf_concat]
  split_ifs with hempty
  · rw [List.isEmpty_iff.mp hempty]
    rfl
  · rfl

variable (regs : List (Registration H)) (m : Method)

theorem register_trees : (register regs).trees m = treeOf (routesFor regs m) := by
  induction regs using reverseRecOn with
  | nil => rfl
  | append_singleton regs g ih =>
    unfold register at ih ⊢
    rw [foldl_append, foldl_cons, foldl_nil, Router.handle]
    dsimp only
    unfold routesFor at ih ⊢
    rw [filter_append, map_append]
    split_ifs with hm
    · rw [filter_cons_of_pos (by simp [hm]), filter_nil, map_cons, map_nil, treeOf_concat, ih]
    · rw [filter_cons_of_neg (by simpa using Ne.symm hm), filter_nil, map_nil, append_nil, ih]

def builtRoutes (regs : List (Registration H)) (m : Method) : List (Bytes × H) :=
  routesFor regs m ++ if m = .head then (register regs).missingHEAD else []

theorem addImplicitHEAD_trees : (register regs).addImplicitHEAD.trees m = treeOf (builtRoutes regs m) := by
  have hgen : ∀ (more : List (Bytes × H)) (r : Router H) (routes : List (Bytes × H)), r.trees m = treeOf routes →
      (more.foldl (fun r route => r.handle ⟨.head, route.1, route.2⟩) r).trees m =
        treeOf (routes ++ if m = .head then more else []) := by
    intro more
    induction more with
    | nil =>
      intro r routes h
      rw [ite_self, append_nil]
      exact h
    | cons route more ih =>
      intro r routes h
      rw [foldl_cons, ih (r.handle ⟨.head, route.1, route.2⟩) (routes ++ if m = .head then [route] else [])]
      · split_ifs
        · rw [append_assoc, singleton_append]
        · rw [append_nil]
      · rw [Router.handle]
        dsimp only
        split_ifs with hm
        · rw [treeOf_concat, h]
        rw [append_nil]
        exact h
  exact hgen _ _ _ (register_trees regs m)

theorem build_trees : (register regs).build.trees m =
      if (builtRoutes regs m).isEmpty then none else some (buildTree (trieOf (builtRoutes regs m))) := by
  unfold Router.build
  dsimp only
  rw [addImplicitHEAD_trees, treeOf]
  split_ifs <;> rfl

theorem collectStaticRoutes_mem {n : Node H} : ∀ {before : Bytes} {e : Bytes × H}, e ∈ collectStaticRoutes n before →
    ∃ rest, e.1 = before ++ n.path ++ rest ∧ StaticAt n rest e.2 := by
  induction n using Node.induct with
  | step n hchildren hparam =>
    intro before e he
    rw [collectStaticRoutes] at he
    rcases mem_append.mp he with he | he
    · obtain ⟨h, hn, rfl⟩ := Option.map_eq_some_iff.mp (Option.mem_toList.mp he)
      exact ⟨[], (append_nil _).symm, .here hn⟩
    obtain ⟨c, -, hc⟩ := mem_flatMap.mp he
    obtain ⟨rest, hpath, hs⟩ := hchildren c.1 c.2 hc
    refine ⟨c.1.path ++ rest, ?_, .child c.2 hs⟩
    rw [hpath, append_assoc]

theorem collapseRoot_cases (root : Node H) : collapseRoot root = root ∨
    root.handler = none ∧ root.paramChild = none ∧ root.catchAll = none ∧ root.children = [collapseRoot root] := by
  unfold collapseRoot
  split_ifs with hempty
  · simp only [Option.isNone_iff_eq_none] at hempty
    split
    · rename_i child hone
      exact .inr ⟨hempty.2.1, hempty.2.2.1, hempty.2.2.2, hone⟩
    · exact .inl rfl
  · exact .inl rfl

theorem collapseRoot_mem {root : Node H} (h : root.children = [collapseRoot root]) :
    collapseRoot root ∈ root.children := by
  rw [h]
  exact mem_cons_self

theorem collapseRoot_wf {root : Node H} (hwf : root.WF) : (collapseRoot root).WF := by
  rcases collapseRoot_cases root with heq | ⟨-, -, -, hone⟩
  · rw [heq]
    exact hwf
  · exact (hwf.child (by rw [hone]; exact mem_cons_self)).2.2

theorem holds_collapseRoot {root : Node H} (hpath : root.path = []) {ts : List Tok} {h : H}
    (hh : Holds root ts h) {proper : Bool} {path : Bytes} {ps : Params}
    (hcaps : Captures proper ts path ps) :
    ∃ ts' rest, path = (collapseRoot root).path ++ rest ∧ Holds (collapseRoot root) ts' h ∧
      Captures proper ts' rest ps := by
  rcases collapseRoot_cases root with heq | ⟨hhandler, hparam, hcatch, hone⟩
  · rw [heq, hpath]
    exact ⟨ts, path, rfl, hh, hcaps⟩
  cases hh with
  | here hn =>
    rw [hhandler] at hn
    cases hn
  | @child _ c ts _ hc hh =>
    rw [hone] at hc
    obtain rfl := mem_singleton.mp hc
    obtain ⟨rest, rfl, hrest⟩ := hcaps.of_bytes
    exact ⟨ts, rest, rfl, hh, hrest⟩
  | param hp _ =>
    rw [hparam] at hp
    cases hp
  | catchAll hq =>
    rw [hcatch] at hq
    cases hq

section
variable {root : Node H} (hwf : root.WF) (hpath : root.path = [])
include hwf hpath

variable {found : H × Params}

theorem Finds.of_collapseRoot {rest : Bytes} {params : Params}
    (h : Finds (collapseRoot root) rest params found) : Finds root ((collapseRoot root).path ++ rest) params found := by
  rcases collapseRoot_cases root with heq | ⟨-, -, -, hone⟩
  · rw [heq] at h ⊢
    rw [hpath]
    exact h
  have hmem := collapseRoot_mem hone
  apply Finds.child (hwf.staticChildFor hmem rest)
  rw [drop_left]
  exact h

theorem findBuilt_collapseRoot (path : Bytes) : findBuilt (collapseRoot root) path = findInTree root path := by
  unfold findBuilt findInTree
  rcases collapseRoot_cases root with heq | ⟨hhandler, hparam, hcatch, hone⟩
  · rw [heq, hpath]
    rfl
  have hmem := collapseRoot_mem hone
  split_ifs with hpre
  · obtain ⟨rest, rfl⟩ := isPrefixOf_iff_prefix.mp hpre
    obtain ⟨c, s, hcons⟩ := exists_cons_of_ne_nil (hwf.child hmem).1
    have hstatic := hwf.staticChildFor hmem rest
    rw [hcons, cons_append] at hstatic ⊢
    rw [walk_cons, hstatic, hcatch, Option.elim_some, ← hcons]
    rfl
  rcases path with _ | ⟨c, rest⟩
  · rw [walk, hhandler]
    rfl
  have hstatic := Node.staticChildFor_only hone hpre
  rw [walk_cons, hstatic, hparam, hcatch]
  rfl

theorem findBuiltOrBacktrack_finds {path : Bytes}
    (h : findBuiltOrBacktrack (buildTree root) path = some found) : Finds root path [] found := by
  unfold findBuiltOrBacktrack buildTree at h
  rw [findBuilt_collapseRoot hwf hpath] at h
  cases hwalk : findInTree root path with
  | some found' =>
    rw [hwalk] at h
    cases h
    rcases walk_finds hwalk with hfinds | hpending
    · exact hfinds
    · cases hpending
  | none =>
    rw [hwalk] at h
    unfold findWithBacktracking at h
    split_ifs at h with hback hpre
    obtain ⟨_, rfl⟩ := isPrefixOf_iff_prefix.mp hpre
    rw [drop_left] at h
    exact (routeBacktrack_finds h).of_collapseRoot hwf hpath

theorem find_finds {path : Bytes} (h : (buildTree root).find path = some found) :
    Finds root path [] found ∨ ∃ q, (collapseRoot root).catchAll = some q ∧ path = (collapseRoot root).path ∧
      found = (q.handler, [(q.catchName, [])]) := by
  unfold BuiltTree.find at h
  cases hstatic : (buildTree root).findStatic path with
  | some handler =>
    rw [hstatic] at h
    cases h
    obtain ⟨rest, hrest, hs⟩ := collectStaticRoutes_mem (findStatic_mem hstatic)
    dsimp only at hrest
    have hcaps : Captures true (rest.map .byte) rest [] := by
      have hbytes := (@Captures.nil true).bytes rest
      rw [append_nil, append_nil] at hbytes
      exact hbytes
    rw [hrest]
    exact .inl (Finds.of_collapseRoot hwf hpath ⟨_, _, hs.holds, hcaps, rfl⟩)
  | none =>
    rw [hstatic] at h
    cases hfind : findBuiltOrBacktrack (buildTree root) path with
    | some found' =>
      rw [hfind] at h
      cases h
      exact .inl (findBuiltOrBacktrack_finds hwf hpath hfind)
    | none =>
      rw [hfind] at h
      split_ifs at h with hpre
      obtain ⟨rest, rfl⟩ := isPrefixOf_iff_prefix.mp hpre
      rw [drop_left] at h
      obtain ⟨q, hq, rfl⟩ := Option.map_eq_some_iff.mp h
      cases rest with
      | nil => exact .inr ⟨q, hq, append_nil _, rfl⟩
      | cons c rest =>
        exact .inl (Finds.of_collapseRoot hwf hpath (.catchAll hq (cons_ne_nil _ _) _))

end

end AlosHttp.Routing

import Voxlib.Http.Routes

/-!
# Requests

A pattern that matches is found unless other routes stand in front of it.
-/

namespace Voxlib.Router
open CStr List

variable {H : Type}

theorem segmentsFrom_slash (seg x : Bytes) : segmentsFrom seg (x ++ [47]) = segmentsFrom seg x := by
  induction x generalizing seg with
  | nil =>
    rw [nil_append, segmentsFrom, segmentsFrom, if_pos rfl]
    rfl
  | cons c x ih => rw [cons_append, segmentsFrom, segmentsFrom, ih, ih]

theorem segmentsFrom_trim (seg x : Bytes) :
    segmentsFrom seg (x.rdropWhile fun c => c = 47) = segmentsFrom seg x := by
  induction x using List.reverseRecOn with
  | nil => rfl
  | append_singleton x c ih =>
    rw [rdropWhile_concat]
    split_ifs with hc
    · rw [of_decide_eq_true hc, segmentsFrom_slash, ih]
    · rfl

theorem segmentsFrom_pieces (seg x : Bytes) :
    segmentsFrom seg x = ((x.splitOn 47).modifyHead (seg ++ ·)).filter (· ≠ []) := by
  induction x generalizing seg with
  | nil =>
    rw [segmentsFrom]
    split_ifs with hseg
    · simp [hseg]
    · simp [hseg]
  | cons c x ih =>
    have hcons : (c :: x).splitOn 47 = if c = 47 then [] :: x.splitOn 47
        else (x.splitOn 47).modifyHead (List.cons c) := by
      rw [List.splitOn, splitOnP_cons_eq_if_modifyHead]
      simp [List.splitOn]
    have hsame : (x.splitOn 47).modifyHead (fun y => [] ++ y) = x.splitOn 47 := by
      cases x.splitOn 47 <;> rfl
    rw [segmentsFrom, hcons, ih, ih, hsame]
    split_ifs with hc hseg
    · rw [hseg]
      rfl
    · rw [modifyHead_cons, filter_cons_of_pos (by simpa using hseg), append_nil]
    · rw [modifyHead_modifyHead]
      congr 2
      funext y
      simp

variable {path : Bytes}

theorem segments_eq (h : path.head? = some 47) : segments path = pieces path := by
  cases path with
  | nil => cases h
  | cons c x =>
    cases h
    have htrim : (trimTrailingSlash (47 :: x)).tail = x.rdropWhile fun c => c = 47 := rfl
    have hcons : (47 :: x).splitOn 47 = [] :: x.splitOn 47 := by
      rw [List.splitOn, splitOnP_cons_eq_if_modifyHead]
      simp [List.splitOn]
    have hsame : (x.splitOn 47).modifyHead (fun y => [] ++ y) = x.splitOn 47 := by
      cases x.splitOn 47 <;> rfl
    rw [segments, htrim, segmentsFrom_trim, segmentsFrom_pieces, hsame, pieces, hcons]
    rfl

theorem pieces_proper (path : Bytes) : [] ∉ pieces path := by
  intro h
  have hne := of_mem_filter h
  simp at hne

/-- A call of vox_http_router_add. -/
structure Call (H : Type) where
  method : Method
  path : Bytes
  handlers : List H

def addAll : List (Call H) → RouterState H → Option (RouterState H)
  | [], router => some router
  | c :: calls, router =>
    let done := routerAdd router c.method c.path c.handlers
    if done.2 then addAll calls done.1 else none

def routesOf (method : Method) (calls : List (Call H)) : List (Route H) :=
  (calls.filter (·.method = method)).map fun c => ⟨pieces c.path, c.handlers⟩

variable {method : Method} {calls : List (Call H)}

theorem mem_routesOf {r : Route H} : r ∈ routesOf method calls ↔
      ∃ c ∈ calls, c.method = method ∧ ⟨pieces c.path, c.handlers⟩ = r := by
  rw [routesOf, mem_map]
  constructor
  · rintro ⟨c, hc, hr⟩
    obtain ⟨hmem, hmethod⟩ := mem_filter.mp hc
    exact ⟨c, hmem, by simpa using hmethod, hr⟩
  · rintro ⟨c, hmem, hmethod, hr⟩
    exact ⟨c, mem_filter.mpr ⟨hmem, by simpa using hmethod⟩, hr⟩

theorem routes_proper (method : Method) (calls : List (Call H)) :
    ∀ r ∈ routesOf method calls, [] ∉ r.segs := by
  intro r hr
  obtain ⟨c, -, -, rfl⟩ := mem_routesOf.mp hr
  exact pieces_proper c.path

variable {router : RouterState H}

theorem routerAdd_done {c : Call H} (h : (routerAdd router c.method c.path c.handlers).2 = true) :
    c.handlers ≠ [] ∧ c.method ≠ .unknown ∧
      insert c.handlers (pieces c.path) (router.roots c.method) =
        ((routerAdd router c.method c.path c.handlers).1.roots c.method, true) ∧ ∀ m, m ≠ c.method →
        (routerAdd router c.method c.path c.handlers).1.roots m = router.roots m := by
  rw [routerAdd] at h ⊢
  split_ifs at h ⊢ with hhandlers hmethod hpath
  rw [segments_eq (not_not.mp hpath)] at h ⊢
  refine ⟨hhandlers, hmethod, Prod.ext (if_pos rfl).symm h, ?_⟩
  intro m hm
  exact if_neg hm

theorem addAll_tree {after : RouterState H} (h : addAll calls router = some after) :
    (∀ m, insertAll (routesOf m calls) (router.roots m) = some (after.roots m)) ∧
      ∀ c ∈ calls, c.handlers ≠ [] ∧ c.method ≠ .unknown := by
  induction calls generalizing router with
  | nil =>
    cases h
    exact ⟨fun _ => rfl, nofun⟩
  | cons c calls ih =>
    rw [addAll] at h
    split_ifs at h with hdone
    obtain ⟨hhandlers, hmethod, hinsert, hothers⟩ := routerAdd_done hdone
    obtain ⟨htrees, hrest⟩ := ih h
    refine ⟨?_, ?_⟩
    · intro m
      rw [← htrees m]
      by_cases hm : c.method = m
      · have hroutes : routesOf m (c :: calls) =
            ⟨pieces c.path, c.handlers⟩ :: routesOf m calls := by simp [routesOf, hm]
        rw [hroutes, insertAll, ← hm, hinsert]
        rfl
      · have hroutes : routesOf m (c :: calls) = routesOf m calls := by simp [routesOf, hm]
        rw [hroutes, hothers m (Ne.symm hm)]
    · intro c' hc'
      rcases mem_cons.mp hc' with rfl | hc'
      · exact ⟨hhandlers, hmethod⟩
      · exact hrest c' hc'

def PathMatches (pattern path : Bytes) : Prop :=
  path.head? = some 47 ∧ (matchSegments (pieces pattern) (pieces path)).isSome

/-- A request finds a route exactly when an added pattern matches, and then the handlers that were
last added for the segments of one that matches, with its parameters. -/
def Serves (calls : List (Call H)) (router : RouterState H) (method : Method) (path : Bytes) :
    Prop :=
  ((routerMatch router method path).isSome ↔
    ∃ c ∈ calls, c.method = method ∧ PathMatches c.path path) ∧
  ∀ found, routerMatch router method path = some found → ∃ c ∈ calls, c.method = method ∧
    PathMatches c.path path ∧
    matchSegments (pieces c.path) (pieces path) = some found.params ∧
    found.handlers = lastHandlers (routesOf method calls) (pieces c.path)

/-- If a pattern matches, then one that matches is the first choice all along the path. -/
def Unobstructed (calls : List (Call H)) (method : Method) (path : Bytes) : Prop :=
  (∃ c ∈ calls, c.method = method ∧ PathMatches c.path path) →
    ∃ c ∈ calls, c.method = method ∧ PathMatches c.path path ∧
      FirstChoice (routesOf method calls) (pieces c.path) (pieces path)

theorem routerMatch_some {found : RouteMatch H} (h : routerMatch router method path = some found) :
    path.head? = some 47 ∧ found.handlers ≠ [] ∧ ∃ node,
      walk (pieces path) (router.roots method) = some (node, found.params) ∧
        node.handlers = found.handlers := by
  rw [routerMatch] at h
  split_ifs at h with hempty hmethod hpath
  have hslash := not_not.mp hpath
  rw [segments_eq hslash] at h
  cases hwalk : walk (pieces path) (router.roots method) with
  | none =>
    rw [hwalk] at h
    cases h
  | some r =>
    obtain ⟨node, params⟩ := r
    rw [hwalk] at h
    dsimp only at h
    split_ifs at h with hnone
    cases h
    exact ⟨hslash, hnone, node, rfl, rfl⟩

theorem routerMatch_sound {found : RouteMatch H} (hadded : addAll calls routerCreate = some router)
    (h : routerMatch router method path = some found) : ∃ c ∈ calls, c.method = method ∧
      PathMatches c.path path ∧ FirstChoice (routesOf method calls) (pieces c.path) (pieces path) ∧
      matchSegments (pieces c.path) (pieces path) = some found.params ∧
      found.handlers = lastHandlers (routesOf method calls) (pieces c.path) := by
  obtain ⟨hslash, hfound, node, hwalk, hnode⟩ := routerMatch_some h
  have htree : Tree false (routesOf method calls) (router.roots method) :=
    (addAll_tree hadded).1 method
  obtain ⟨q, hmatch, hfirst, hhandlers⟩ :=
    walk_sound (routes_proper method calls) (pieces_proper path) htree hwalk
  rw [hnode] at hhandlers
  rw [hhandlers] at hfound
  obtain ⟨r, hr, rfl⟩ := lastHandlers_mem hfound
  obtain ⟨c, hc, hmethod, rfl⟩ := mem_routesOf.mp hr
  refine ⟨c, hc, hmethod, ⟨hslash, ?_⟩, hfirst, hmatch, hhandlers⟩
  dsimp only at hmatch
  rw [hmatch]
  rfl

theorem routerMatch_complete {c : Call H} (hadded : addAll calls routerCreate = some router)
    (hc : c ∈ calls) (hmatch : PathMatches c.path path)
    (hfirst : FirstChoice (routesOf c.method calls) (pieces c.path) (pieces path)) :
    (routerMatch router c.method path).isSome := by
  obtain ⟨htrees, hchecked⟩ := addAll_tree hadded
  obtain ⟨hslash, hsegs⟩ := hmatch
  have hr : (⟨pieces c.path, c.handlers⟩ : Route H) ∈ routesOf c.method calls :=
    mem_routesOf.mpr ⟨c, hc, rfl, rfl⟩
  have hall : ∀ r ∈ routesOf c.method calls, r.handlers ≠ [] := by
    intro r hr
    obtain ⟨c', hc', -, rfl⟩ := mem_routesOf.mp hr
    exact (hchecked c' hc').1
  obtain ⟨node, params, hwalk, hhandlers⟩ := walk_complete (routes_proper c.method calls)
    (pieces_proper path) (htrees c.method) hr hsegs hfirst
  have hsome : node.handlers ≠ [] := by
    rw [hhandlers]
    exact lastHandlers_ne_nil hr hall
  have hpath : path ≠ [] := by
    rintro rfl
    cases hslash
  rw [routerMatch, if_neg hpath, if_neg (hchecked c hc).2, if_neg (not_not.mpr hslash),
    segments_eq hslash, hwalk]
  simp [hsome]

/-- A request is served by the added patterns exactly when one that matches is not obstructed. -/
theorem router_serves (calls : List (Call H)) (router : RouterState H)
    (hadded : addAll calls routerCreate = some router) (method : Method) (path : Bytes) :
    Serves calls router method path ↔ Unobstructed calls method path := by
  constructor
  · rintro ⟨hiff, -⟩ hmatches
    obtain ⟨found, hfound⟩ := Option.isSome_iff_exists.mp (hiff.mpr hmatches)
    obtain ⟨c, hc, hmethod, hmatch, hfirst, -⟩ := routerMatch_sound hadded hfound
    exact ⟨c, hc, hmethod, hmatch, hfirst⟩
  · intro hfree
    refine ⟨⟨?_, ?_⟩, ?_⟩
    · intro hfound
      obtain ⟨found, hfound⟩ := Option.isSome_iff_exists.mp hfound
      obtain ⟨c, hc, hmethod, hmatch, -⟩ := routerMatch_sound hadded hfound
      exact ⟨c, hc, hmethod, hmatch⟩
    · intro hmatches
      obtain ⟨c, hc, rfl, hmatch, hfirst⟩ := hfree hmatches
      exact routerMatch_complete hadded hc hmatch hfirst
    · intro found hfound
      obtain ⟨c, hc, hmethod, hmatch, -, hparams, hhandlers⟩ := routerMatch_sound hadded hfound
      exact ⟨c, hc, hmethod, hmatch, hparams, hhandlers⟩

def siteCalls : List (Call ℕ) :=
  [⟨.get, lit "/hello", [1]⟩, ⟨.get, lit "/user/:id", [2]⟩, ⟨.get, lit "/files/*", [3]⟩]

theorem router_serves_site : ∃ router, addAll siteCalls routerCreate = some router ∧
    (Serves siteCalls router .get (lit "/user//abc/") ↔
      Unobstructed siteCalls .get (lit "/user//abc/")) := by
  have hadded : (addAll siteCalls routerCreate).isSome = true := by decide +kernel
  obtain ⟨router, hrouter⟩ := Option.isSome_iff_exists.mp hadded
  exact ⟨router, hrouter, router_serves siteCalls router hrouter .get (lit "/user//abc/")⟩

example : ((addAll siteCalls routerCreate).bind fun router =>
    (routerMatch router .get (lit "/user//abc/")).map fun found => (found.handlers, found.params)) =
      some ([2], [(lit "id", lit "abc")]) := by decide +kernel

def apiCalls : List (Call ℕ) := [⟨.get, lit "/api/users", [1]⟩, ⟨.get, lit "/*", [2]⟩]

/-- The catch-all does not see the paths that begin like the route. -/
theorem catch_all_missed : ∃ router, addAll apiCalls routerCreate = some router ∧
    (routerMatch router .get (lit "/api/x")).isSome = false ∧
    PathMatches (lit "/*") (lit "/api/x") ∧ ¬ Serves apiCalls router .get (lit "/api/x") := by
  have hadded : (addAll apiCalls routerCreate).isSome = true := by decide +kernel
  have hmissed : ((addAll apiCalls routerCreate).bind fun router =>
      routerMatch router .get (lit "/api/x")).isSome = false := by decide +kernel
  have hmatches : PathMatches (lit "/*") (lit "/api/x") := ⟨by decide +kernel, by decide +kernel⟩
  obtain ⟨router, hrouter⟩ := Option.isSome_iff_exists.mp hadded
  rw [hrouter, Option.bind_some] at hmissed
  refine ⟨router, hrouter, hmissed, hmatches, ?_⟩
  rintro ⟨hiff, -⟩
  have hfound := hiff.mpr ⟨⟨.get, lit "/*", [2]⟩, by simp [apiCalls], rfl, hmatches⟩
  rw [hmissed] at hfound
  cases hfound

end Voxlib.Router

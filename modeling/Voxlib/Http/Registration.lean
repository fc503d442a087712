import Voxlib.Http.Dispatch

/-!
# Failed registrations (vox_http_router.c)
-/

namespace Voxlib.Router
open CStr List Option

variable {H : Type}

/-- The loop of vox_http_router_add from a node on. `alloc n` says whether the pool has what a new
node takes for the segment that has `n` others behind it. -/
def insertIn (alloc : ℕ → Bool) (hs : List H) : List Bytes → RNode H → RNode H × Bool
  | [], node => (node.setHandlers hs, true)
  | seg :: rest, node =>
    if seg.head? = some 58 then
      let name := seg.tail
      if name = [] then (node, false)
      else
        match node.paramChild with
        | some (paramName, c) =>
          if paramName = name then
            let done := insertIn alloc hs rest c
            (node.setParam name done.1, done.2)
          else (node, false)
        | none =>
          if alloc rest.length then
            let done := insertIn alloc hs rest .create
            (node.setParam name done.1, done.2)
          else (node, false)
    else
      match node.findStaticChild seg with
      | some c =>
        let done := insertIn alloc hs rest (if seg = star then c.setSplat else c)
        (node.setStatic seg done.1, done.2)
      | none =>
        if alloc rest.length then
          let done := insertIn alloc hs rest (if seg = star then RNode.create.setSplat else .create)
          (node.setStatic seg done.1, done.2)
        else (node, false)

/-- vox_http_router_add (vox_http_router.c:117-169); `true` for 0. -/
def routerAddIn (alloc : ℕ → Bool) (router : RouterState H) (method : Method) (path : Bytes)
    (hs : List H) : RouterState H × Bool :=
  if hs = [] then (router, false)
  else if method = .unknown then (router, false)
  else if path.head? ≠ some 47 then (router, false)
  else
    let done := insertIn alloc hs (segments path) (router.roots method)
    (⟨fun m => if m = method then done.1 else router.roots m⟩, done.2)

/-- The routers that calls make, whether they succeed or not. -/
inductive Reachable : RouterState H → Prop
  | create : Reachable routerCreate
  | add {router : RouterState H} (alloc : ℕ → Bool) (method : Method) (path : Bytes)
      (hs : List H) : Reachable router → Reachable (routerAddIn alloc router method path hs).1

/-- With memory for every node this is the registration of above. -/
theorem insertIn_all (hs : List H) (segs : List Bytes) (node : RNode H) :
    insertIn (fun _ => true) hs segs node = insert hs segs node := by
  induction segs generalizing node with
  | nil => rfl
  | cons seg rest ih =>
    rw [insertIn, insert]
    dsimp only
    split
    · split
      · rfl
      · rw [RNode.getOrAddParamChild]
        cases node.paramChild with
        | none =>
          dsimp only
          rw [if_pos rfl, ih]
        | some child =>
          dsimp only
          split
          · rw [ih]
          · rfl
    · cases node.findStaticChild seg with
      | none =>
        dsimp only
        rw [if_pos rfl, ih]
        rfl
      | some c =>
        dsimp only
        rw [ih]
        rfl

theorem routerAddIn_all (router : RouterState H) (method : Method) (path : Bytes) (hs : List H) :
    routerAddIn (fun _ => true) router method path hs = routerAdd router method path hs := by
  rw [routerAddIn, routerAdd, insertIn_all]

/-- What a path is matched to from a node on. -/
def outcome (path : List Bytes) (node : RNode H) : Option (RouteMatch H) :=
  match walk path node with
  | none => none
  | some (found, params) =>
    if found.handlers = [] then none else some ⟨found.handlers, params⟩

theorem routerMatch_eq (router : RouterState H) (method : Method) (path : Bytes) :
    routerMatch router method path =
      if path = [] ∨ method = .unknown ∨ path.head? ≠ some 47 then none
      else outcome (segments path) (router.roots method) := by
  rw [routerMatch, outcome]
  split_ifs <;> grind

def RouteMatch.behind (name seg : Bytes) (r : RouteMatch H) : RouteMatch H :=
  ⟨r.handlers, (name, seg) :: r.params⟩

theorem RouteMatch.behind_injective (name seg : Bytes) :
    Function.Injective (RouteMatch.behind (H := H) name seg) := by
  rintro ⟨hs, params⟩ ⟨hs', params'⟩ h
  obtain ⟨hhs, hparams⟩ := RouteMatch.mk.inj h
  dsimp only at hhs hparams
  rw [hhs, (List.cons.inj hparams).2]

section Outcomes

variable {node c child : RNode H} {seg name : Bytes} {rest path : List Bytes}

/-- The `*` that takes the rest of a path. -/
def RNode.splatChild (node : RNode H) : Option (RNode H) :=
  (node.findStaticChild star).filter RNode.isSplat

theorem outcome_nil (node : RNode H) :
    outcome [] node = if node.handlers = [] then none else some ⟨node.handlers, []⟩ := rfl

theorem outcome_static (h : node.findStaticChild seg = some c) :
    outcome (seg :: path) node = outcome path c := by
  rw [outcome, walk, h]
  rfl

section
variable (h : node.findStaticChild seg = none)
include h

theorem outcome_splat (hc : node.splatChild = some c) :
    outcome (seg :: path) node = outcome [] c := by
  rw [RNode.splatChild] at hc
  rw [outcome, walk, h, hc]
  rfl

theorem outcome_param (hsplat : node.splatChild = none) (hc : node.paramChild = some (name, c)) :
    outcome (seg :: path) node = (outcome path c).map (RouteMatch.behind name seg) := by
  rw [RNode.splatChild] at hsplat
  rw [outcome, walk, h, hsplat, hc, outcome]
  dsimp only
  cases walk path c with
  | none => rfl
  | some found =>
    obtain ⟨found, params⟩ := found
    dsimp only [map_some]
    split_ifs
    · rfl
    · rfl

theorem outcome_none (hsplat : node.splatChild = none) (hc : node.paramChild = none) :
    outcome (seg :: path) node = none := by
  rw [RNode.splatChild] at hsplat
  rw [outcome, walk, h, hsplat, hc]

end

end Outcomes

section Parts

variable (node child : RNode H) (seg name : Bytes) (hs : List H)

@[simp] theorem staticMap_setParam : (node.setParam name child).staticMap = node.staticMap := by
  cases node
  rfl

@[simp] theorem paramChild_setParam :
    (node.setParam name child).paramChild = some (name, child) := by
  cases node
  rfl

@[simp] theorem handlers_setParam : (node.setParam name child).handlers = node.handlers := by
  cases node
  rfl

@[simp] theorem paramChild_setStatic : (node.setStatic seg child).paramChild = node.paramChild := by
  cases node
  rfl

@[simp] theorem handlers_setStatic : (node.setStatic seg child).handlers = node.handlers := by
  cases node
  rfl

theorem staticMap_setStatic (x : Bytes) :
    (node.setStatic seg child).staticMap x = if x = seg then some child else node.staticMap x := by
  cases node
  rfl

@[simp] theorem findStaticChild_setParam :
    (node.setParam name child).findStaticChild = node.findStaticChild := by
  funext x
  rw [RNode.findStaticChild, RNode.findStaticChild, staticMap_setParam]

@[simp] theorem splatChild_setParam : (node.setParam name child).splatChild = node.splatChild := by
  rw [RNode.splatChild, RNode.splatChild, findStaticChild_setParam]

theorem findStaticChild_same (hne : seg ≠ []) :
    (node.setStatic seg child).findStaticChild seg = some child := by
  rw [RNode.findStaticChild, if_neg hne, staticMap_setStatic, if_pos rfl]

theorem findStaticChild_other {x : Bytes} (hx : x ≠ seg) :
    (node.setStatic seg child).findStaticChild x = node.findStaticChild x := by
  rw [RNode.findStaticChild, RNode.findStaticChild, staticMap_setStatic, if_neg hx]

theorem splatChild_setStatic_same (hchild : child.isSplat = true) :
    (node.setStatic star child).splatChild = some child := by
  rw [RNode.splatChild, findStaticChild_same _ _ _ star_ne, filter_some, if_pos hchild]

theorem splatChild_setStatic_other (hseg : seg ≠ star) :
    (node.setStatic seg child).splatChild = node.splatChild := by
  rw [RNode.splatChild, RNode.splatChild, findStaticChild_other _ _ _ hseg.symm]

end Parts

/-- No static child looks like a parameter, and a child under `*` takes the rest. -/
inductive Sane : RNode H → Prop
  | mk {node : RNode H}
      (keys : ∀ seg c, node.staticMap seg = some c →
        ¬ IsParam seg ∧ (seg = star → c.isSplat = true))
      (static : ∀ seg c, node.staticMap seg = some c → Sane c)
      (param : ∀ name c, node.paramChild = some (name, c) → Sane c) : Sane node

section Trees

variable {node c child : RNode H} {seg name : Bytes} {rest path segs : List Bytes}
  {alloc : ℕ → Bool} {hs : List H}

theorem Sane.keys (h : Sane node) (hc : node.staticMap seg = some c) :
    ¬ IsParam seg ∧ (seg = star → c.isSplat = true) := by
  obtain ⟨hkeys, -, -⟩ := h
  exact hkeys seg c hc

theorem Sane.static (h : Sane node) (hc : node.staticMap seg = some c) : Sane c := by
  obtain ⟨-, hstatic, -⟩ := h
  exact hstatic seg c hc

theorem Sane.param (h : Sane node) (hc : node.paramChild = some (name, c)) : Sane c := by
  obtain ⟨-, -, hparam⟩ := h
  exact hparam name c hc

variable (splat : Bool)

theorem sane_empty : Sane (emptyNode splat : RNode H) :=
  .mk nofun nofun nofun

theorem Sane.setParam (h : Sane node) (hc : Sane child) : Sane (node.setParam name child) := by
  refine .mk (fun seg c hmap => ?_) (fun seg c hmap => ?_) fun _ c hmap => ?_
  · rw [staticMap_setParam] at hmap
    exact h.keys hmap
  · rw [staticMap_setParam] at hmap
    exact h.static hmap
  · rw [paramChild_setParam] at hmap
    cases hmap
    exact hc

theorem Sane.setStatic (h : Sane node) (hc : Sane child) (hseg : ¬ IsParam seg)
    (hstar : seg = star → child.isSplat = true) : Sane (node.setStatic seg child) := by
  refine .mk (fun x c hmap => ?_) (fun x c hmap => ?_) fun _ c hmap => ?_
  · rw [staticMap_setStatic] at hmap
    split_ifs at hmap with hx
    · cases hmap
      exact hx ▸ ⟨hseg, hstar⟩
    · exact h.keys hmap
  · rw [staticMap_setStatic] at hmap
    split_ifs at hmap with hx
    · cases hmap
      exact hc
    · exact h.static hmap
  · rw [paramChild_setStatic] at hmap
    exact h.param hmap

theorem new_child : (if seg = star then RNode.create.setSplat else .create) =
    (emptyNode (decide (seg = star)) : RNode H) := by
  by_cases hstar : seg = star
  · rw [if_pos hstar, decide_eq_true hstar]
    rfl
  · rw [if_neg hstar, decide_eq_false hstar]
    rfl

/-- What one segment of the pattern does to a node: it is refused and the node stays as it is, or the
rest is registered under a child, which was there or is new, and the result takes the child's place. -/
inductive Step (alloc : ℕ → Bool) (hs : List H) (seg : Bytes) (rest : List Bytes)
    (node : RNode H) : RNode H × Bool → Prop
  | refused
      (hparam : IsParam seg → seg.tail ≠ [] → ∀ c, node.paramChild ≠ some (seg.tail, c))
      (hstatic : ¬ IsParam seg → node.findStaticChild seg = none ∧ alloc rest.length ≠ true) :
      Step alloc hs seg rest node (node, false)
  | param (c : RNode H) (hseg : IsParam seg) (hname : seg.tail ≠ [])
      (hparam : node.paramChild = some (seg.tail, c)) :
      Step alloc hs seg rest node
        (node.setParam seg.tail (insertIn alloc hs rest c).1, (insertIn alloc hs rest c).2)
  | newParam (hseg : IsParam seg) (hname : seg.tail ≠ []) (hparam : node.paramChild = none)
      (halloc : alloc rest.length = true) :
      Step alloc hs seg rest node
        (node.setParam seg.tail (insertIn alloc hs rest (emptyNode false)).1,
          (insertIn alloc hs rest (emptyNode false)).2)
  | static (c : RNode H) (hseg : ¬ IsParam seg) (hstatic : node.findStaticChild seg = some c) :
      Step alloc hs seg rest node
        (node.setStatic seg (insertIn alloc hs rest (if seg = star then c.setSplat else c)).1,
          (insertIn alloc hs rest (if seg = star then c.setSplat else c)).2)
  | newStatic (hseg : ¬ IsParam seg) (hstatic : node.findStaticChild seg = none)
      (halloc : alloc rest.length = true) :
      Step alloc hs seg rest node
        (node.setStatic seg (insertIn alloc hs rest (emptyNode (decide (seg = star)))).1,
          (insertIn alloc hs rest (emptyNode (decide (seg = star)))).2)

theorem insertIn_step (alloc : ℕ → Bool) (hs : List H) (seg : Bytes) (rest : List Bytes)
    (node : RNode H) : Step alloc hs seg rest node (insertIn alloc hs (seg :: rest) node) := by
  rw [insertIn]
  dsimp only
  by_cases hseg : IsParam seg
  · rw [if_pos (show seg.head? = some 58 from hseg)]
    by_cases hname : seg.tail = []
    · rw [if_pos hname]
      exact .refused (fun _ h => absurd hname h) fun h => absurd hseg h
    rw [if_neg hname]
    cases hparam : node.paramChild with
    | none =>
      dsimp only
      by_cases halloc : alloc rest.length = true
      · rw [if_pos halloc]
        exact .newParam hseg hname hparam halloc
      · rw [if_neg halloc]
        exact .refused (fun _ _ c h => absurd (hparam.symm.trans h).symm (some_ne_none _))
          fun h => absurd hseg h
    | some child =>
      obtain ⟨name, c⟩ := child
      dsimp only
      by_cases hsame : name = seg.tail
      · rw [if_pos hsame]
        exact .param c hseg hname (hsame ▸ hparam)
      · rw [if_neg hsame]
        refine .refused (fun _ _ d h => hsame ?_) fun h => absurd hseg h
        exact congrArg Prod.fst (some.inj (hparam.symm.trans h))
  · rw [if_neg (show ¬ seg.head? = some 58 from hseg)]
    cases hstatic : node.findStaticChild seg with
    | none =>
      dsimp only
      rw [new_child]
      by_cases halloc : alloc rest.length = true
      · rw [if_pos halloc]
        exact .newStatic hseg hstatic halloc
      · rw [if_neg halloc]
        exact .refused (fun h => absurd h hseg) fun _ => ⟨hstatic, halloc⟩
    | some c => exact .static c hseg hstatic

theorem insertIn_isSplat (segs : List Bytes) (node : RNode H) :
    (insertIn alloc hs segs node).1.isSplat = node.isSplat := by
  cases segs with
  | nil => exact RNode.isSplat_setHandlers node hs
  | cons seg rest =>
    have hstep := insertIn_step alloc hs seg rest node
    generalize insertIn alloc hs (seg :: rest) node = done at hstep ⊢
    cases hstep with
    | refused => rfl
    | param => exact RNode.isSplat_setParam ..
    | newParam => exact RNode.isSplat_setParam ..
    | static => exact RNode.isSplat_setStatic ..
    | newStatic => exact RNode.isSplat_setStatic ..

theorem setSplat_self (h : node.isSplat = true) : node.setSplat = node := by
  cases node
  cases h
  rfl

theorem Sane.splat_child (h : Sane node) (hc : node.findStaticChild seg = some c) :
    (if seg = star then c.setSplat else c) = c := by
  rw [RNode.findStaticChild] at hc
  split_ifs at hc
  split_ifs with hstar
  · exact setSplat_self ((h.keys hc).2 hstar)
  · rfl

theorem Sane.static_child (h : Sane node) (hc : node.findStaticChild seg = some c) : Sane c := by
  rw [RNode.findStaticChild] at hc
  split_ifs at hc
  exact h.static hc

theorem Sane.no_static_child (h : Sane node) (hne : seg ≠ []) (hseg : IsParam seg) :
    node.findStaticChild seg = none := by
  rw [RNode.findStaticChild, if_neg hne]
  by_contra hsome
  obtain ⟨x, hx⟩ := ne_none_iff_exists'.mp hsome
  exact (h.keys hx).1 hseg

theorem Sane.insertIn (h : Sane node) : Sane (insertIn alloc hs segs node).1 := by
  induction segs generalizing node with
  | nil =>
    cases node
    exact .mk (fun _ _ => h.keys) (fun _ _ => h.static) fun _ _ => h.param
  | cons seg rest ih =>
    have hstep := insertIn_step alloc hs seg rest node
    generalize Router.insertIn alloc hs (seg :: rest) node = done at hstep ⊢
    cases hstep with
    | refused => exact h
    | param c _ _ hparam => exact h.setParam (ih (h.param hparam))
    | newParam => exact h.setParam (ih (sane_empty false))
    | newStatic hseg =>
      refine h.setStatic (ih (sane_empty _)) hseg fun hstar => ?_
      rw [insertIn_isSplat]
      exact decide_eq_true hstar
    | static c hseg hstatic =>
      dsimp only
      rw [h.splat_child hstatic]
      rw [RNode.findStaticChild] at hstatic
      split_ifs at hstatic
      refine h.setStatic (ih (h.static hstatic)) hseg fun hstar => ?_
      rw [insertIn_isSplat]
      exact (h.keys hstatic).2 hstar

theorem Reachable.sane {router : RouterState H} (h : Reachable router) (method : Method) :
    Sane (router.roots method) := by
  induction h with
  | create => exact sane_empty false
  | add alloc m path hs _ ih =>
    rw [routerAddIn]
    split_ifs
    · exact ih
    · exact ih
    · exact ih
    · dsimp only
      split_ifs with hm
      · exact hm ▸ ih.insertIn
      · exact ih

def Barren (node : RNode H) : Prop := ∀ path, outcome path node = none

def Proper (path : List Bytes) : Prop := ∀ s ∈ path, s ≠ [] ∧ (47 : UInt8) ∉ s

theorem proper_cons : Proper (seg :: path) ↔ (seg ≠ [] ∧ (47 : UInt8) ∉ seg) ∧ Proper path :=
  forall_mem_cons

theorem findStaticChild_empty (seg : Bytes) :
    (emptyNode splat : RNode H).findStaticChild seg = none := ite_self _

theorem barren_empty : Barren (emptyNode splat : RNode H) := by
  intro path
  cases path with
  | nil => rfl
  | cons x path => exact outcome_none (findStaticChild_empty splat x) rfl rfl

/-- A parameter with nothing behind it matches nothing more than what the node matches anyway. -/
theorem outcome_setParam_barren (hchild : Barren child) (hparam : node.paramChild = none) :
    outcome path (node.setParam name child) = outcome path node := by
  cases path with
  | nil => rw [outcome_nil, outcome_nil, handlers_setParam]
  | cons x path =>
    cases hstatic : node.findStaticChild x with
    | some c =>
      rw [outcome_static hstatic, outcome_static (by rw [findStaticChild_setParam, hstatic])]
    | none =>
      cases hsplat : node.splatChild with
      | some c =>
        rw [outcome_splat hstatic hsplat, outcome_splat (by rw [findStaticChild_setParam, hstatic])
          (by rw [splatChild_setParam, hsplat])]
      | none =>
        rw [outcome_none hstatic hsplat hparam, outcome_param
          (by rw [findStaticChild_setParam, hstatic]) (by rw [splatChild_setParam, hsplat])
          (paramChild_setParam ..), hchild]
        rfl

def Taken (seg : Bytes) (node : RNode H) (path : List Bytes) : Prop :=
  path.head? = some seg ∨ seg = star ∧ ∃ x ∈ path.head?, node.findStaticChild x = none

theorem outcome_setStatic_taken (hchild : Barren child) (hne : seg ≠ [])
    (hstar : seg = star → child.isSplat = true) (hpath : Taken seg node path) :
    outcome path (node.setStatic seg child) = none := by
  rcases path with _ | ⟨x, path⟩
  · rcases hpath with h | ⟨-, x, hx, -⟩
    · cases h
    · cases hx
  by_cases hx : x = seg
  · rw [hx, outcome_static (findStaticChild_same _ _ _ hne), hchild]
  · rcases hpath with h | ⟨rfl, y, hy, hnone⟩
    · exact absurd (some.inj h) hx
    · cases hy
      rw [outcome_splat (by rw [findStaticChild_other _ _ _ hx, hnone])
        (splatChild_setStatic_same _ _ (hstar rfl)), hchild]

theorem outcome_setStatic_free (hpath : ¬ Taken seg node path) :
    outcome path (node.setStatic seg child) = outcome path node := by
  rcases path with _ | ⟨x, path⟩
  · rw [outcome_nil, outcome_nil, handlers_setStatic]
  have hx : x ≠ seg := fun h => hpath (.inl (congrArg some h))
  have hfind := findStaticChild_other node child seg hx
  cases hstatic : node.findStaticChild x with
  | some c => rw [outcome_static hstatic, outcome_static (by rw [hfind, hstatic])]
  | none =>
    have hseg : seg ≠ star := fun h => hpath (.inr ⟨h, x, rfl, hstatic⟩)
    have hsplat := splatChild_setStatic_other node child seg hseg
    cases hc : node.splatChild with
    | some c =>
      rw [outcome_splat hstatic hc, outcome_splat (by rw [hfind, hstatic]) (by rw [hsplat, hc])]
    | none =>
      cases hparam : node.paramChild with
      | none =>
        rw [outcome_none hstatic hc hparam, outcome_none (by rw [hfind, hstatic])
          (by rw [hsplat, hc]) (by rw [paramChild_setStatic, hparam])]
      | some child =>
        rw [outcome_param hstatic hc hparam, outcome_param (by rw [hfind, hstatic])
          (by rw [hsplat, hc]) (by rw [paramChild_setStatic, hparam])]

theorem insertIn_barren (hsegs : Proper segs)
    (hfail : (insertIn alloc hs segs (emptyNode splat)).2 = false) :
    Barren (insertIn alloc hs segs (emptyNode splat)).1 := by
  induction segs generalizing splat with
  | nil => cases hfail
  | cons seg rest ih =>
    obtain ⟨⟨hne, -⟩, hrest⟩ := proper_cons.mp hsegs
    have hstep := insertIn_step alloc hs seg rest (emptyNode splat)
    generalize insertIn alloc hs (seg :: rest) (emptyNode splat) = done at hstep hfail ⊢
    cases hstep with
    | refused => exact barren_empty splat
    | param c _ _ hparam => cases hparam
    | newParam =>
      intro path
      exact (outcome_setParam_barren (ih false hrest hfail) rfl).trans (barren_empty splat path)
    | static c _ hstatic =>
      rw [findStaticChild_empty] at hstatic
      cases hstatic
    | newStatic =>
      intro path
      have hchild := ih (decide (seg = star)) hrest hfail
      by_cases htaken : Taken seg (emptyNode splat : RNode H) path
      · refine outcome_setStatic_taken hchild hne (fun hstar => ?_) htaken
        rw [insertIn_isSplat]
        exact decide_eq_true hstar
      · exact (outcome_setStatic_free htaken).trans (barren_empty splat path)

theorem outcome_newStatic (hne : seg ≠ []) (hrest : Proper rest)
    (hfail : (insertIn alloc hs rest (emptyNode (decide (seg = star)))).2 = false)
    (htaken : Taken seg node path) : outcome path (node.setStatic seg
      (insertIn alloc hs rest (emptyNode (decide (seg = star)))).1) = none := by
  refine outcome_setStatic_taken (insertIn_barren _ hrest hfail) hne (fun hstar => ?_) htaken
  rw [insertIn_isSplat]
  exact decide_eq_true hstar

/-- A failed registration from this node on loses no match. No path comes to a parameter that stands
beside a `*`. A new node for a parameter takes no path from another one, but a new node for a static
segment must not take a path that is matched. -/
def Harmless (alloc : ℕ → Bool) : List Bytes → RNode H → Prop
  | [], _ => True
  | seg :: rest, node =>
    if IsParam seg then
      seg.tail ≠ [] → ∀ c, node.paramChild = some (seg.tail, c) → node.splatChild = none →
        Harmless alloc rest c
    else
      (∀ c, node.findStaticChild seg = some c → Harmless alloc rest c) ∧
      (node.findStaticChild seg = none → alloc rest.length = true →
        ∀ path, Proper path → Taken seg node path → outcome path node = none)

theorem outcome_static_kept (hold : node.findStaticChild seg = some c)
    (hsplat : child.isSplat = c.isSplat) (hsame : ∀ path, Proper path →
      outcome path child = outcome path c) (hpath : Proper path) :
    outcome path (node.setStatic seg child) = outcome path node := by
  have hne : seg ≠ [] := by
    rintro rfl
    cases hold
  rcases path with _ | ⟨x, path⟩
  · rw [outcome_nil, outcome_nil, handlers_setStatic]
  by_cases hx : x = seg
  · subst hx
    rw [outcome_static hold, outcome_static (findStaticChild_same _ _ _ hne)]
    exact hsame path (proper_cons.mp hpath).2
  by_cases htaken : Taken seg node (x :: path)
  · rcases htaken with h | ⟨rfl, y, hy, hnone⟩
    · exact absurd (some.inj h) hx
    · cases hy
      have hnone' : (node.setStatic star child).findStaticChild x = none := by
        rw [findStaticChild_other _ _ _ hx, hnone]
      have hend := hsame [] nofun
      cases hc : c.isSplat with
      | true =>
        rw [outcome_splat hnone (show node.splatChild = some c by
          rw [RNode.splatChild, hold, filter_some, if_pos hc]),
          outcome_splat hnone' (splatChild_setStatic_same _ _ (hsplat.trans hc)), hend]
      | false =>
        have hold' : node.splatChild = none := by
          rw [RNode.splatChild, hold, filter_some,
            if_neg (by rw [hc]; exact Bool.false_ne_true)]
        have hnew' : (node.setStatic star child).splatChild = none := by
          rw [RNode.splatChild, findStaticChild_same _ _ _ star_ne, filter_some,
            if_neg (by rw [hsplat, hc]; exact Bool.false_ne_true)]
        cases hparam : node.paramChild with
        | none =>
          rw [outcome_none hnone hold' hparam, outcome_none hnone' hnew'
            (by rw [paramChild_setStatic, hparam])]
        | some p =>
          rw [outcome_param hnone hold' hparam, outcome_param hnone' hnew'
            (by rw [paramChild_setStatic, hparam])]
  · exact outcome_setStatic_free htaken

theorem outcome_param_kept (hold : node.paramChild = some (name, c))
    (hsame : node.splatChild = none → ∀ path, Proper path → outcome path child = outcome path c)
    (hpath : Proper path) : outcome path (node.setParam name child) = outcome path node := by
  rcases path with _ | ⟨x, path⟩
  · rw [outcome_nil, outcome_nil, handlers_setParam]
  have hfind : (node.setParam name child).findStaticChild x = node.findStaticChild x := by
    rw [findStaticChild_setParam]
  have hkeep : (node.setParam name child).splatChild = node.splatChild := splatChild_setParam ..
  cases hstatic : node.findStaticChild x with
  | some c => rw [outcome_static hstatic, outcome_static (hfind.trans hstatic)]
  | none =>
    cases hsplat : node.splatChild with
    | some c =>
      rw [outcome_splat hstatic hsplat, outcome_splat (hfind.trans hstatic) (hkeep.trans hsplat)]
    | none =>
      rw [outcome_param hstatic hsplat hold, outcome_param (hfind.trans hstatic)
        (hkeep.trans hsplat) (paramChild_setParam ..), hsame hsplat path (proper_cons.mp hpath).2]

theorem insertIn_kept (hsane : Sane node) (hsegs : Proper segs)
    (hfail : (insertIn alloc hs segs node).2 = false) (hharm : Harmless alloc segs node) :
    ∀ path, Proper path → outcome path (insertIn alloc hs segs node).1 = outcome path node := by
  induction segs generalizing node with
  | nil => cases hfail
  | cons seg rest ih =>
    intro path hpath
    obtain ⟨⟨hne, -⟩, hrest⟩ := proper_cons.mp hsegs
    rw [Harmless] at hharm
    have hstep := insertIn_step alloc hs seg rest node
    generalize insertIn alloc hs (seg :: rest) node = done at hstep hfail ⊢
    cases hstep with
    | refused => rfl
    | newParam _ _ hparam =>
      exact outcome_setParam_barren (insertIn_barren false hrest hfail) hparam
    | param c hseg hname hparam =>
      rw [if_pos hseg] at hharm
      exact outcome_param_kept hparam (fun hsplat =>
        ih (hsane.param hparam) hrest hfail (hharm hname c hparam hsplat)) hpath
    | newStatic hseg hstatic halloc =>
      rw [if_neg hseg] at hharm
      by_cases htaken : Taken seg node path
      · rw [hharm.2 hstatic halloc path hpath htaken]
        exact outcome_newStatic hne hrest hfail htaken
      · exact outcome_setStatic_free htaken
    | static c hseg hstatic =>
      rw [if_neg hseg] at hharm
      dsimp only at hfail ⊢
      rw [hsane.splat_child hstatic] at hfail ⊢
      exact outcome_static_kept hstatic (insertIn_isSplat ..)
        (ih (hsane.static_child hstatic) hrest hfail (hharm.1 c hstatic)) hpath

theorem insertIn_lost (hsane : Sane node) (hsegs : Proper segs)
    (hfail : (insertIn alloc hs segs node).2 = false) (hharm : ¬ Harmless alloc segs node) :
    ∃ path, path ≠ [] ∧ Proper path ∧
      outcome path (insertIn alloc hs segs node).1 ≠ outcome path node := by
  induction segs generalizing node with
  | nil => cases hfail
  | cons seg rest ih =>
    obtain ⟨⟨hne, hslash⟩, hrest⟩ := proper_cons.mp hsegs
    rw [Harmless] at hharm
    have hstep := insertIn_step alloc hs seg rest node
    generalize insertIn alloc hs (seg :: rest) node = done at hstep hfail ⊢
    cases hstep with
    | refused hparam hstatic =>
      refine absurd ?_ hharm
      by_cases hseg : IsParam seg
      · rw [if_pos hseg]
        exact fun hname c hc => absurd hc (hparam hseg hname c)
      · rw [if_neg hseg]
        obtain ⟨hnone, halloc⟩ := hstatic hseg
        exact ⟨fun c hc => absurd (hnone.symm.trans hc).symm (some_ne_none c),
          fun _ h => absurd h halloc⟩
    | newParam hseg _ hnone =>
      rw [if_pos hseg] at hharm
      exact absurd (fun _ c hc => absurd (hnone.symm.trans hc).symm (some_ne_none _)) hharm
    | param c hseg hname hparam =>
      rw [if_pos hseg] at hharm
      push Not at hharm
      obtain ⟨-, d, hd, hsplat, hlost⟩ := hharm
      obtain rfl : d = c := congrArg Prod.snd (some.inj (hd.symm.trans hparam))
      obtain ⟨path, -, hpath, hdiff⟩ := ih (hsane.param hparam) hrest hfail hlost
      -- the pattern's own segment is no static child
      have hstatic := hsane.no_static_child hne hseg
      refine ⟨seg :: path, cons_ne_nil _ _, proper_cons.mpr ⟨⟨hne, hslash⟩, hpath⟩, ?_⟩
      rw [outcome_param hstatic hsplat hparam, outcome_param
        (by rw [findStaticChild_setParam, hstatic]) (by rw [splatChild_setParam, hsplat])
        (paramChild_setParam ..)]
      exact fun heq => hdiff (map_injective (RouteMatch.behind_injective _ _) heq)
    | newStatic hseg hstatic =>
      rw [if_neg hseg] at hharm
      have hlost : ¬ (alloc rest.length = true → ∀ path, Proper path → Taken seg node path →
          outcome path node = none) := fun h => hharm
        ⟨fun x hx => absurd (hstatic.symm.trans hx).symm (some_ne_none x), fun _ => h⟩
      push Not at hlost
      obtain ⟨-, path, hpath, htaken, hmatch⟩ := hlost
      refine ⟨path, ?_, hpath, ?_⟩
      · rintro rfl
        rcases htaken with h | ⟨-, x, hx, -⟩
        · cases h
        · cases hx
      · rw [outcome_newStatic hne hrest hfail htaken]
        exact hmatch.symm
    | static c hseg hstatic =>
      rw [if_neg hseg] at hharm
      dsimp only at hfail ⊢
      rw [hsane.splat_child hstatic] at hfail ⊢
      have hlost : ¬ Harmless alloc rest c := fun h => hharm
        ⟨fun x hx => some.inj (hstatic.symm.trans hx) ▸ h,
          fun hx => absurd (hstatic.symm.trans hx) (some_ne_none c)⟩
      obtain ⟨path, -, hpath, hdiff⟩ := ih (hsane.static_child hstatic) hrest hfail hlost
      refine ⟨seg :: path, cons_ne_nil _ _, proper_cons.mpr ⟨⟨hne, hslash⟩, hpath⟩, ?_⟩
      rwa [outcome_static hstatic, outcome_static (findStaticChild_same _ _ _ hne)]

end Trees

theorem segmentsFrom_proper (seg : Bytes) (hseg : (47 : UInt8) ∉ seg) (x : Bytes) :
    Proper (segmentsFrom seg x) := by
  induction x generalizing seg with
  | nil =>
    rw [segmentsFrom]
    split
    · exact fun s hs => absurd hs not_mem_nil
    · next hne =>
      intro s hs
      rw [mem_singleton.mp hs]
      exact ⟨hne, hseg⟩
  | cons c x ih =>
    rw [segmentsFrom]
    split
    · split
      · exact ih [] not_mem_nil
      · next hne => exact proper_cons.mpr ⟨⟨hne, hseg⟩, ih [] not_mem_nil⟩
    · next hc =>
      refine ih _ fun hmem => ?_
      rcases mem_append.mp hmem with h | h
      · exact hseg h
      · exact hc (mem_singleton.mp h).symm

theorem segments_proper (path : Bytes) : Proper (segments path) :=
  segmentsFrom_proper [] not_mem_nil _

theorem exists_path {segs : List Bytes} (hne : segs ≠ []) (hsegs : Proper segs) :
    ∃ path : Bytes, path.head? = some 47 ∧ segments path = segs := by
  have hhead : (List.intercalate [47] ([] :: segs)).head? = some 47 := by
    obtain ⟨s, rest, rfl⟩ := exists_cons_of_ne_nil hne
    rw [List.intercalate, intersperse_cons_cons, flatten_cons]
    rfl
  refine ⟨List.intercalate [47] ([] :: segs), hhead, ?_⟩
  have hplain : ∀ s ∈ [] :: segs, (47 : UInt8) ∉ s := by
    intro s hs
    rcases mem_cons.mp hs with rfl | hs
    · exact not_mem_nil
    · exact (hsegs s hs).2
  rw [segments_eq hhead, pieces, splitOn_intercalate 47 hplain (cons_ne_nil _ _),
    filter_cons_of_neg (by simp)]
  exact filter_eq_self.mpr fun s hs => decide_eq_true (hsegs s hs).1

/-- The call fails before it reads the pattern, or what it leaves in the tree loses no match. -/
def AddHarmless (alloc : ℕ → Bool) (router : RouterState H) (method : Method) (path : Bytes)
    (hs : List H) : Prop :=
  hs = [] ∨ method = .unknown ∨ path.head? ≠ some 47 ∨
    Harmless alloc (segments path) (router.roots method)

/-- A failed registration changes no match of any method and path, if and only if what it leaves
behind is harmless. -/
theorem failed_add_atomic_iff (alloc : ℕ → Bool) (router : RouterState H) (hr : Reachable router)
    (method : Method) (path : Bytes) (hs : List H)
    (hfail : (routerAddIn alloc router method path hs).2 = false) :
    (∀ m p, routerMatch (routerAddIn alloc router method path hs).1 m p = routerMatch router m p) ↔
      AddHarmless alloc router method path hs := by
  rw [AddHarmless]
  rw [routerAddIn] at hfail ⊢
  split_ifs at hfail ⊢ with hnil hunknown hslash
  · exact iff_of_true (fun _ _ => rfl) (.inl hnil)
  · exact iff_of_true (fun _ _ => rfl) (.inr (.inl hunknown))
  · exact iff_of_true (fun _ _ => rfl) (.inr (.inr (.inl hslash)))
  · simp only [hnil, hunknown, hslash, false_or]
    have hsegs := segments_proper path
    constructor
    · intro hall
      by_contra hharm
      obtain ⟨segs, hne, hproper, hdiff⟩ := insertIn_lost (hr.sane method) hsegs hfail hharm
      obtain ⟨p, hhead, rfl⟩ := exists_path hne hproper
      have hp : ¬ (p = [] ∨ method = .unknown ∨ p.head? ≠ some 47) := by
        rintro (rfl | h | h)
        · cases hhead
        · exact hunknown h
        · exact h hhead
      have hsame := hall method p
      rw [routerMatch_eq, routerMatch_eq, if_neg hp, if_neg hp] at hsame
      dsimp only at hsame
      rw [if_pos rfl] at hsame
      exact hdiff hsame
    · intro hharm m p
      rw [routerMatch_eq, routerMatch_eq]
      split_ifs with hp
      · rfl
      · dsimp only
        split_ifs with hm
        · rw [hm]
          exact insertIn_kept (hr.sane method) hsegs hfail hharm _ (segments_proper p)
        · rfl

def paramRouter : RouterState Unit :=
  (routerAddIn (fun _ => true) routerCreate .get (lit "/:x") [()]).1

theorem paramRouter_reachable : Reachable paramRouter := .add _ _ _ _ .create

/-- The pattern "/a/:" leaves the node of "a", and "/a" was matched by the parameter. -/
theorem failed_add_loses_route :
    (routerAddIn (fun _ => true) paramRouter .get (lit "/a/:") [()]).2 = false ∧
    ¬ ∀ m p, routerMatch (routerAddIn (fun _ => true) paramRouter .get (lit "/a/:") [()]).1 m p =
      routerMatch paramRouter m p := by
  refine ⟨by decide +kernel, fun hall => ?_⟩
  have hsame := congrArg Option.isSome (hall .get (lit "/a"))
  revert hsame
  decide +kernel

theorem failed_add_param :
    (∀ m p, routerMatch (routerAddIn (fun _ => true) paramRouter .get (lit "/a/:") [()]).1 m p =
      routerMatch paramRouter m p) ↔
      AddHarmless (fun _ => true) paramRouter .get (lit "/a/:") [()] :=
  failed_add_atomic_iff (fun _ => true) paramRouter paramRouter_reachable .get (lit "/a/:") [()]
    (by decide +kernel)

end Voxlib.Router

import Voxlib.Lib.CStr
import Mathlib.Data.List.DropRight

/-!
# The router (vox_http_router.c)

A tree of segments for each method. A node has its static children in a table
and at most one child that takes any segment as a parameter; a static child
named `*` also takes the rest of a path. The table is the map that it is, and
allocations succeed.
-/

namespace Voxlib.Router
open CStr

inductive Method where
  | unknown | get | head | post | put | delete | connect | options | trace | patch
  deriving DecidableEq, Repr

/-- vox_http_rnode_t: the table of its static children, and the parameter's name with its child. -/
inductive RNode (H : Type)
  | mk (isSplat : Bool) (staticMap : Bytes → Option (RNode H))
    (paramChild : Option (Bytes × RNode H)) (handlers : List H)

variable {H : Type}

namespace RNode

def isSplat : RNode H → Bool
  | .mk isSplat _ _ _ => isSplat

def staticMap : RNode H → Bytes → Option (RNode H)
  | .mk _ staticMap _ _ => staticMap

def paramChild : RNode H → Option (Bytes × RNode H)
  | .mk _ _ paramChild _ => paramChild

def handlers : RNode H → List H
  | .mk _ _ _ handlers => handlers

-- vox_http_rnode_create (vox_http_router.c:46-55)
def create : RNode H := .mk false (fun _ => none) none []

def setSplat : RNode H → RNode H
  | .mk _ staticMap paramChild handlers => .mk true staticMap paramChild handlers

def setHandlers : RNode H → List H → RNode H
  | .mk isSplat staticMap paramChild _, hs => .mk isSplat staticMap paramChild hs

def setStatic : RNode H → Bytes → RNode H → RNode H
  | .mk isSplat staticMap paramChild handlers, seg, child =>
    .mk isSplat (fun s => if s = seg then some child else staticMap s) paramChild handlers

def setParam : RNode H → Bytes → RNode H → RNode H
  | .mk isSplat staticMap _ handlers, name, child =>
    .mk isSplat staticMap (some (name, child)) handlers

@[simp] theorem isSplat_setParam (node child : RNode H) (name : Bytes) :
    (node.setParam name child).isSplat = node.isSplat := by
  cases node
  rfl

@[simp] theorem isSplat_setStatic (node child : RNode H) (seg : Bytes) :
    (node.setStatic seg child).isSplat = node.isSplat := by
  cases node
  rfl

@[simp] theorem isSplat_setHandlers (node : RNode H) (hs : List H) :
    (node.setHandlers hs).isSplat = node.isSplat := by
  cases node
  rfl

-- vox_http_rnode_find_static_child (vox_http_router.c:57-60)
def findStaticChild (node : RNode H) (seg : Bytes) : Option (RNode H) :=
  if seg = [] then none else node.staticMap seg

-- vox_http_rnode_get_or_add_param_child (vox_http_router.c:75-92); one name for each level
def getOrAddParamChild (node : RNode H) (name : Bytes) : Option (RNode H) :=
  match node.paramChild with
  | some (paramName, child) => if paramName = name then some child else none
  | none => some create

end RNode

-- vox_http_trim_trailing_slash (vox_http_router.c:94-97)
def trimTrailingSlash (path : Bytes) : Bytes :=
  path.take 1 ++ (path.drop 1).rdropWhile fun c => c = 47

/- The segments that the loops of add and match meet from a position on: `seg` is the part of the
   current one in front of it. -/
def segmentsFrom (seg : Bytes) : Bytes → List Bytes
  | [] => if seg = [] then [] else [seg]
  | c :: rest =>
    if c = 47 then
      if seg = [] then segmentsFrom [] rest else seg :: segmentsFrom [] rest
    else segmentsFrom (seg ++ [c]) rest

def segments (path : Bytes) : List Bytes := segmentsFrom [] (trimTrailingSlash path).tail

def star : Bytes := [42]

/-- The loop of vox_http_router_add (vox_http_router.c:134-163) from a node on: the node as it is
then, and whether the handlers stand at the end. -/
def insert (hs : List H) : List Bytes → RNode H → RNode H × Bool
  | [], node => (node.setHandlers hs, true)
  | seg :: rest, node =>
    if seg.head? = some 58 then
      let name := seg.tail
      if name = [] then (node, false)
      else
        match node.getOrAddParamChild name with
        | none => (node, false)
        | some c =>
          let done := insert hs rest c
          (node.setParam name done.1, done.2)
    else
      let c := (node.findStaticChild seg).getD .create
      let c := if seg = star then c.setSplat else c
      let done := insert hs rest c
      (node.setStatic seg done.1, done.2)

/-- vox_http_router_t: a root for each method. -/
structure RouterState (H : Type) where
  roots : Method → RNode H

-- vox_http_router_create (vox_http_router.c:99-109)
def routerCreate : RouterState H := ⟨fun _ => .create⟩

/-- vox_http_router_add (vox_http_router.c:117-169); `true` for 0. -/
def routerAdd (router : RouterState H) (method : Method) (path : Bytes) (hs : List H) :
    RouterState H × Bool :=
  if hs = [] then (router, false)
  else if method = .unknown then (router, false)
  else if path.head? ≠ some 47 then (router, false)
  else
    let done := insert hs (segments path) (router.roots method)
    (⟨fun m => if m = method then done.1 else router.roots m⟩, done.2)

/-- The loop of vox_http_router_match (vox_http_router.c:195-243) from a node on: the node it ends
at and the parameters it adds. -/
def walk : List Bytes → RNode H → Option (RNode H × List (Bytes × Bytes))
  | [], node => some (node, [])
  | seg :: rest, node =>
    match node.findStaticChild seg with
    | some c => walk rest c
    | none =>
      match (node.findStaticChild star).filter RNode.isSplat with
      | some c => some (c, [])
      | none =>
        match node.paramChild with
        | some (name, c) => (walk rest c).map fun r => (r.1, (name, seg) :: r.2)
        | none => none

/-- vox_http_route_match_t. -/
structure RouteMatch (H : Type) where
  handlers : List H
  params : List (Bytes × Bytes)

/-- vox_http_router_match (vox_http_router.c:171-249); `none` for -1. -/
def routerMatch (router : RouterState H) (method : Method) (path : Bytes) : Option (RouteMatch H) :=
  if path = [] then none
  else if method = .unknown then none
  else if path.head? ≠ some 47 then none
  else
    match walk (segments path) (router.roots method) with
    | none => none
    | some (node, params) => if node.handlers = [] then none else some ⟨node.handlers, params⟩

end Voxlib.Router

import Voxlib.Lib.CStr
import Voxlib.Lib.LinkTree

/-!
# The red-black tree (vox_rbtree.c)

The fields of the nodes are maps from addresses, `none` is NULL. A result
`none` stands for a loop that does not end or for a field of NULL that is read
or written. The mirrored branches of the source are one branch with the side
as an argument. A node given back by vox_rbtree_delete keeps its contents to
the end of the call.
-/

namespace Voxlib.RbTree
open CStr LinkTree

abbrev Addr := ℕ

inductive Color where
  | red
  | black
  deriving DecidableEq, Repr

structure Skeleton where
  links : Links Addr
  color : Addr → Color

/- `live` are the nodes that the pool has handed out. -/
structure Tree (V : Type) where
  skel : Skeleton
  key : Addr → Bytes
  value : Addr → Option V
  live : Finset Addr
  size : ℕ

abbrev KeyCmp := Bytes → Bytes → ℕ → ℤ

variable {V : Type}

-- vox_rbtree.c:43-62
def getColor (sk : Skeleton) : Option Addr → Color
  | none => .black
  | some a => sk.color a

def setColor (sk : Skeleton) (node : Option Addr) (c : Color) : Skeleton :=
  match node with
  | none => sk
  | some a => { sk with color := Function.update sk.color a c }

def isRed (sk : Skeleton) : Option Addr → Bool
  | none => false
  | some a => sk.color a = .red

def isBlack (sk : Skeleton) : Option Addr → Bool
  | none => true
  | some a => sk.color a = .black

/- The pointer of the parent of `u`, or the root, is set to `v`: the same lines
   in both rotations and in transplant. -/
def swing (L : Links Addr) (u : Addr) (v : Option Addr) : Links Addr :=
  match L.parent u with
  | none => L.setRoot v
  | some q => if L.child .left q = some u then L.setChild .left q v else L.setChild .right q v

/- The child of `x` on the other side moves up, `x` becomes its child on side
   `d`. -/
def rotate (d : Dir) (L : Links Addr) (x : Addr) : Option (Links Addr) :=
  match L.child d.flip x with
  | none => none
  | some y =>
    let L₁ := L.setChild d.flip x (L.child d y)
    let L₂ := L₁.setParentOf (L₁.child d y) (some x)
    let L₃ := L₂.setParent y (L₂.parent x)
    let L₄ := swing L₃ x (some y)
    let L₅ := L₄.setChild d y (some x)
    some (L₅.setParent x (some y))

-- vox_rbtree.c:65-109
def leftRotate (L : Links Addr) (x : Addr) : Option (Links Addr) := rotate .left L x

def rightRotate (L : Links Addr) (x : Addr) : Option (Links Addr) := rotate .right L x

def rotateAt (d : Dir) (sk : Skeleton) (x : Addr) : Option Skeleton :=
  (match d with
    | .left => leftRotate sk.links x
    | .right => rightRotate sk.links x).map fun L => { sk with links := L }

def compareKeys (cmp : KeyCmp) (key nodeKey : Bytes) : ℤ :=
  if key.length ≠ nodeKey.length then (if key.length < nodeKey.length then -1 else 1)
  else cmp key nodeKey key.length

-- find_node (vox_rbtree.c:112-138)
def findNode (cmp : KeyCmp) (t : Tree V) (key : Bytes) : ℕ → Option Addr → Option (Option Addr)
  | _, none => some none
  | 0, some _ => none
  | fuel + 1, some a =>
    let c := compareKeys cmp key (t.key a)
    if c = 0 then some (some a)
    else if c < 0 then findNode cmp t key fuel (t.skel.links.child .left a)
    else findNode cmp t key fuel (t.skel.links.child .right a)

def endNode (d : Dir) (L : Links Addr) : ℕ → Addr → Option Addr
  | 0, _ => none
  | fuel + 1, a =>
    match L.child d a with
    | none => some a
    | some b => endNode d L fuel b

-- vox_rbtree.c:141-154
def minNode (L : Links Addr) : ℕ → Addr → Option Addr := endNode .left L

def maxNode (L : Links Addr) : ℕ → Addr → Option Addr := endNode .right L

/- The parent of the node is the child on side `d` of its grandparent, the
   uncle is black and the node is on side `d`. -/
def insertCase3 (d : Dir) (sk : Skeleton) (node : Addr) : Option (Skeleton × Addr) :=
  match sk.links.parent node with
  | none => none
  | some p =>
    match sk.links.parent p with
    | none => none
    | some g =>
      (rotateAt d.flip (setColor (setColor sk (some p) .black) (some g) .red) g).map
        fun sk' => (sk', node)

def insertCases (d : Dir) (sk : Skeleton) (node p g : Addr) : Option (Skeleton × Addr) :=
  let uncle := sk.links.child d.flip g
  if isRed sk uncle then
    some (setColor (setColor (setColor sk (some p) .black) uncle .black) (some g) .red, g)
  else if sk.links.child d.flip p = some node then
    (rotateAt d sk p).bind fun sk' => insertCase3 d sk' p
  else insertCase3 d sk node

/- The loop of insert_fixup (vox_rbtree.c:158-203). -/
def insertLoop : ℕ → Skeleton → Addr → Option Skeleton
  | 0, _, _ => none
  | fuel + 1, sk, node =>
    if sk.links.root = some node then some sk
    else if isRed sk (sk.links.parent node) then
      match sk.links.parent node with
      | none => none
      | some p =>
        match sk.links.parent p with
        | none => none
        | some g =>
          let d := if sk.links.child .left g = some p then Dir.left else Dir.right
          match insertCases d sk node p g with
          | none => none
          | some (sk', node') => insertLoop fuel sk' node'
    else some sk

-- insert_fixup (vox_rbtree.c:157-206)
def insertFixup (fuel : ℕ) (sk : Skeleton) (node : Addr) : Option Skeleton :=
  (insertLoop fuel sk node).map fun sk' => setColor sk' sk'.links.root .black

/- Where the search of vox_rbtree_insert ends: at the key, or below `parent` on
   the side of the last comparison. -/
inductive Place where
  | found (a : Addr)
  | free (parent : Option Addr) (cmp : ℤ)

def findPlace (cmp : KeyCmp) (t : Tree V) (key : Bytes) :
    ℕ → Option Addr → Option Addr → ℤ → Option Place
  | _, none, parent, c => some (.free parent c)
  | 0, some _, _, _ => none
  | fuel + 1, some a, _, _ =>
    let c := compareKeys cmp key (t.key a)
    if c = 0 then some (.found a)
    else if c < 0 then findPlace cmp t key fuel (t.skel.links.child .left a) (some a) c
    else findPlace cmp t key fuel (t.skel.links.child .right a) (some a) c

def link (sk : Skeleton) (a : Addr) (parent : Option Addr) (c : ℤ) : Skeleton :=
  let L := ((sk.links.setChild .left a none).setChild .right a none).setParent a parent
  { links :=
      match parent with
      | none => L.setRoot (some a)
      | some q => if c < 0 then L.setChild .left q (some a) else L.setChild .right q (some a)
    color := Function.update sk.color a .red }

/- The loops go round at most once for each node of a tree of this size. -/
def Tree.fuel (t : Tree V) : ℕ := t.size + 2

/- vox_rbtree_insert (vox_rbtree.c:354-426). `newNode` is what the pool gives for
   the node, `newKey` whether it gives room for the key. -/
def insert (cmp : KeyCmp) (t : Tree V) (key : Bytes) (value : V) (newNode : Option Addr)
    (newKey : Bool) : Option (ℤ × Tree V) :=
  if key.length = 0 then some (-1, t)
  else
    match findPlace cmp t key t.fuel t.skel.links.root none 0 with
    | none => none
    | some (.found a) => some (0, { t with value := Function.update t.value a (some value) })
    | some (.free parent c) =>
      match newNode with
      | none => some (-1, t)
      | some a =>
        if newKey = false then some (-1, t)
        else
          (insertFixup t.fuel (link t.skel a parent c) a).map fun sk =>
            (0, { skel := sk
                  key := Function.update t.key a key
                  value := Function.update t.value a (some value)
                  live := Insert.insert a t.live
                  size := t.size + 1 })

/- One round of delete_fixup on side `d` of `p`. The flag tells that the round
   ended in case 2 and the loop goes up. -/
def case1 (d : Dir) (sk : Skeleton) (p : Addr) : Option Skeleton :=
  let sibling := sk.links.child d.flip p
  if isRed sk sibling then
    rotateAt d (setColor (setColor sk sibling .black) (some p) .red) p
  else some sk

def case3 (d : Dir) (sk : Skeleton) (s : Addr) : Option Skeleton :=
  if isBlack sk (sk.links.child d.flip s) then
    rotateAt d.flip (setColor (setColor sk (sk.links.child d s) .black) (some s) .red) s
  else some sk

def case4 (d : Dir) (sk : Skeleton) (p : Addr) : Option Skeleton :=
  match sk.links.child d.flip p with
  | none => some sk
  | some s =>
    let sk₁ := setColor sk (some s) (getColor sk (some p))
    let sk₂ := setColor sk₁ (some p) .black
    let sk₃ := setColor sk₂ (sk₂.links.child d.flip s) .black
    rotateAt d sk₃ p

def deleteCases (d : Dir) (sk : Skeleton) (p : Addr) : Option (Skeleton × Bool) :=
  match case1 d sk p with
  | none => none
  | some sk₁ =>
    match sk₁.links.child d.flip p with
    | none => some (sk₁, true)
    | some s =>
      if isBlack sk₁ (sk₁.links.child .left s) ∧ isBlack sk₁ (sk₁.links.child .right s) then
        some (setColor sk₁ (some s) .red, true)
      else
        ((case3 d sk₁ s).bind fun sk₂ => case4 d sk₂ p).map fun sk' => (sk', false)

def isLeftOf (L : Links Addr) (a : Addr) : Bool :=
  match L.parent a with
  | none => false
  | some q => L.child .left q = some a

-- delete_fixup (vox_rbtree.c:210-300)
def deleteFixup : ℕ → Skeleton → Option Addr → Option Addr → Bool → Option Skeleton
  | 0, _, _, _, _ => none
  | fuel + 1, sk, node, parent, isLeft =>
    if node ≠ sk.links.root ∧ isBlack sk node then
      match parent with
      | none => some (setColor sk node .black)
      | some p =>
        match deleteCases (if isLeft then .left else .right) sk p with
        | none => none
        | some (sk', true) =>
          deleteFixup fuel sk' (some p) (sk'.links.parent p) (isLeftOf sk'.links p)
        | some (sk', false) => deleteFixup fuel sk' sk'.links.root (some p) false
    else some (setColor sk node .black)

-- transplant (vox_rbtree.c:303-315)
def transplant (L : Links Addr) (u : Addr) (v : Option Addr) : Links Addr :=
  let L₁ := swing L u v
  L₁.setParentOf v (L₁.parent u)

/- What vox_rbtree_delete knows after the node is out of the tree. -/
structure Unlinked where
  skel : Skeleton
  x : Option Addr
  y : Addr
  yColor : Color

/- `y` takes the place of `z`, which has two children. -/
def unlinkMin (sk : Skeleton) (z y : Addr) : Unlinked :=
  let x := sk.links.child .right y
  let L₁ :=
    if sk.links.parent y ≠ some z then
      let L := transplant sk.links y x
      let L' := L.setChild .right y (L.child .right z)
      L'.setParentOf (L'.child .right y) (some y)
    else sk.links.setParentOf x (some y)
  let L₂ := transplant L₁ z (some y)
  let L₃ := L₂.setChild .left y (L₂.child .left z)
  let L₄ := L₃.setParentOf (L₃.child .left y) (some y)
  ⟨setColor ⟨L₄, sk.color⟩ (some y) (sk.color z), x, y, sk.color y⟩

-- the three cases of vox_rbtree_delete (vox_rbtree.c:456-487)
def unlink (fuel : ℕ) (sk : Skeleton) (z : Addr) : Option Unlinked :=
  match sk.links.child .left z with
  | none =>
    let x := sk.links.child .right z
    some ⟨{ sk with links := transplant sk.links z x }, x, z, sk.color z⟩
  | some l =>
    match sk.links.child .right z with
    | none => some ⟨{ sk with links := transplant sk.links z (some l) }, some l, z, sk.color z⟩
    | some r => (minNode sk.links fuel r).map fun y => unlinkMin sk z y

/- The place that is handed to delete_fixup (vox_rbtree.c:504-520). -/
def fixupPlace (L : Links Addr) (z : Addr) (x : Option Addr) (y : Addr) (isLeftChild : Bool) :
    Option Addr × Bool :=
  match x with
  | some a => (L.parent a, isLeftOf L a)
  | none => if L.parent y = some z then (some y, isLeftChild) else (L.parent y, isLeftOf L y)

-- vox_rbtree_delete (vox_rbtree.c:437-524)
def delete (cmp : KeyCmp) (t : Tree V) (key : Bytes) : Option (ℤ × Tree V) :=
  if key.length = 0 then some (-1, t)
  else
    match findNode cmp t key t.fuel t.skel.links.root with
    | none => none
    | some none => some (-1, t)
    | some (some z) =>
      match unlink t.fuel t.skel z with
      | none => none
      | some u =>
        let t' := { t with skel := u.skel, live := t.live.erase z, size := t.size - 1 }
        if u.yColor = .black then
          let place := fixupPlace u.skel.links z u.x u.y (isLeftOf t.skel.links z)
          (deleteFixup t.fuel u.skel u.x place.1 place.2).map fun sk => (0, { t' with skel := sk })
        else some (0, t')

-- vox_rbtree_find (vox_rbtree.c:429-434)
def find (cmp : KeyCmp) (t : Tree V) (key : Bytes) : Option (Option V) :=
  if key.length = 0 then some none
  else
    (findNode cmp t key t.fuel t.skel.links.root).map fun node =>
      match node with
      | none => none
      | some a => t.value a

-- vox_rbtree_contains (vox_rbtree.c:527-529)
def contains (cmp : KeyCmp) (t : Tree V) (key : Bytes) : Option Bool :=
  (find cmp t key).map Option.isSome

/- The loop of vox_rbtree_clear (vox_rbtree.c:542-549). -/
def clear (cmp : KeyCmp) : ℕ → Tree V → Option (Tree V)
  | 0, _ => none
  | fuel + 1, t =>
    match t.skel.links.root with
    | none => some t
    | some a =>
      match delete cmp t (t.key a) with
      | none => none
      | some (_, t') => clear cmp fuel t'

/- inorder_recursive (vox_rbtree.c:566-575): what the callback is given, in
   order; the result of the source is its length. -/
def inorderRecursive (t : Tree V) : ℕ → Option Addr → Option (List (Bytes × Option V))
  | _, none => some []
  | 0, some _ => none
  | fuel + 1, some a =>
    (inorderRecursive t fuel (t.skel.links.child .left a)).bind fun l =>
      (inorderRecursive t fuel (t.skel.links.child .right a)).map fun r =>
        l ++ (t.key a, t.value a) :: r

def inorder (t : Tree V) : Option (List (Bytes × Option V)) :=
  inorderRecursive t t.fuel t.skel.links.root

/- vox_rbtree_min and vox_rbtree_max (vox_rbtree.c:620-643): an inner `none` is
   the result -1. -/
def endKey (d : Dir) (t : Tree V) : Option (Option Bytes) :=
  match t.skel.links.root with
  | none => some none
  | some a =>
    (match d with
      | .left => minNode t.skel.links t.fuel a
      | .right => maxNode t.skel.links t.fuel a).map fun b => some (t.key b)

def min (t : Tree V) : Option (Option Bytes) := endKey .left t

def max (t : Tree V) : Option (Option Bytes) := endKey .right t

-- vox_rbtree_create_with_config (vox_rbtree.c:324-351)
def create : Tree V where
  skel := { links := ⟨fun _ _ => none, fun _ => none, none⟩, color := fun _ => .red }
  key := fun _ => []
  value := fun _ => none
  live := ∅
  size := 0

end Voxlib.RbTree

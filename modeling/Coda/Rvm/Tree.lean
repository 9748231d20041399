import Coda.Lib.LinkedTree

/-!
The balanced trees of RVM (`rvm/rvm_utils.c`).

A node is its address; `links a .left` is its `lss` and `links a .right` its `gtr` pointer. The
traversal vector holds the entries up to `level`, the last one first, and has room for
`traverseLen` of them. Results are `none` where an assertion fails, a null pointer is followed
or an entry beyond the end of the vector is written.

What the source does on both sides in mirror image (`right heavy`, `left heavy`) is written
once, for the side that is heavy.
-/

namespace Coda.Rvm

open Coda.Lib

inductive TraverseState where
  | lss
  | self
  | gtr
  | init
deriving DecidableEq, Repr

/-- `tree_pos_t`. -/
structure TreePos (α : Type) where
  ptr : Option α
  state : TraverseState

/-- `tree_root_t`, with the links and balance factors of the nodes. -/
structure TreeRoot (α : Type) where
  links : Links α
  bf : α → Int
  root : Option α
  traverse : List (TreePos α)
  traverseLen : Nat
  nNodes : Nat
  maxDepth : Nat

/-- `init_tree_root`, around nodes with any contents. -/
def initTreeRoot {α : Type} (links : Links α) (bf : α → Int) : TreeRoot α :=
  { links, bf, root := none, traverse := [], traverseLen := 0, nNodes := 0, maxDepth := 0 }

section Model

variable {α : Type} [DecidableEq α]

def TreeRoot.setLink (t : TreeRoot α) (a : α) (s : Side) (p : Option α) : TreeRoot α :=
  { t with links := t.links.set a s p }

def TreeRoot.setBf (t : TreeRoot α) (a : α) (v : Int) : TreeRoot α :=
  { t with bf := Function.update t.bf a v }

/-- The balance factor of a node that is heavy on one side. -/
def weight : Side → Int
  | .left => -1
  | .right => 1

def stateOf : Side → TraverseState
  | .left => .lss
  | .right => .gtr

/-- `chk_traverse`. The sum is of unsigned 64-bit numbers. -/
def chkTraverse (t : TreeRoot α) : TreeRoot α :=
  if t.traverseLen ≤ (t.maxDepth + 1) % 2 ^ 64 then { t with traverseLen := t.traverseLen + 15 } else t

/-! ### tree_lookup -/

def lookupLoop (cmp : α → α → Int) (t : TreeRoot α) (node : α) :
    Nat → Option α → Option α → Option (Option α)
  | _, _, none => some none
  | 0, _, some _ => none
  | fuel + 1, par, some cur =>
    if par = some cur then none
    else if cmp node cur = -1 then lookupLoop cmp t node fuel (some cur) (t.links cur .left)
    else if cmp node cur = 0 then some (some cur)
    else if cmp node cur = 1 then lookupLoop cmp t node fuel (some cur) (t.links cur .right)
    else none

/-- `tree_lookup`. No way in the tree is longer than its number of nodes. -/
def treeLookup (cmp : α → α → Int) (t : TreeRoot α) (node : α) : Option (Option α) :=
  lookupLoop cmp t node (t.nNodes + 1) none t.root

/-! ### tree_insert -/

/-- The variables of the search for the insertion point. -/
structure Search (α : Type) where
  par : Option α
  val : Int
  lastUnbal : α
  lastUnbalPar : Option α
  traverse : List (TreePos α)

/-- One node is visited: it may be the last unbalanced one, and gets an entry in the vector. -/
def Search.visit (s : Search α) (bf : Int) (cur : α) (val : Int) (pos : TreePos α) : Search α where
  par := some cur
  val := val
  lastUnbal := if bf ≠ 0 then cur else s.lastUnbal
  lastUnbalPar := if bf ≠ 0 then s.par else s.lastUnbalPar
  traverse := pos :: s.traverse

/-- The search of `tree_insert`, with room for that many more entries in the vector. The flag
tells whether it ended at a node with an equal key. -/
def insertSearch (cmp : α → α → Int) (t : TreeRoot α) (node : α) :
    Nat → Option α → Search α → Option (Bool × Search α)
  | _, none, s => some (false, s)
  | 0, some _, _ => none
  | room + 1, some cur, s =>
    let val := cmp node cur
    if t.bf cur < -1 ∨ t.bf cur > 1 then none
    else if val = -1 then
      insertSearch cmp t node room (t.links cur .left) (s.visit (t.bf cur) cur val ⟨some cur, .lss⟩)
    else if val = 0 then some (true, s.visit (t.bf cur) cur val ⟨some cur, .self⟩)
    else if val = 1 then
      insertSearch cmp t node room (t.links cur .right) (s.visit (t.bf cur) cur val ⟨none, .gtr⟩)
    else none

/-- The loop that sets the balance factors below the last unbalanced node. -/
def setFactors (cmp : α → α → Int) (node : α) : Nat → Option α → TreeRoot α → Option (TreeRoot α)
  | _, none, _ => none
  | fuel, some cur, t =>
    if cur = node then some t
    else
      match fuel with
      | 0 => none
      | fuel + 1 =>
        if t.bf cur ≠ 0 then none
        else
          let t := t.setBf cur (cmp node cur)
          setFactors cmp node fuel (t.links cur (if cmp node cur = 1 then .right else .left)) t

/-- The end of both rotation functions: the sub-tree is inserted again. -/
def relink (t : TreeRoot α) (balPnt : α) (balPntPar : Option α) (newBalPnt : α) : TreeRoot α :=
  match balPntPar with
  | none => { t with root := some newBalPnt }
  | some par =>
    if t.links par .right = some balPnt then t.setLink par .right (some newBalPnt)
    else if t.links par .left = some balPnt then t.setLink par .left (some newBalPnt)
    else t

/-- The links of a single rotation, `rotate RR` for the right side. -/
def rotateSingle (t : TreeRoot α) (heavy : Side) (balPnt subRoot : α) : TreeRoot α :=
  let t := t.setLink balPnt heavy (t.links subRoot heavy.flip)
  t.setLink subRoot heavy.flip (some balPnt)

/-- The links of a double rotation, `RL rotations` for the right side. -/
def rotateDouble (t : TreeRoot α) (heavy : Side) (balPnt subRoot newBalPnt : α) : TreeRoot α :=
  let t := t.setLink subRoot heavy.flip (t.links newBalPnt heavy)
  let t := t.setLink balPnt heavy (t.links newBalPnt heavy.flip)
  let t := t.setLink newBalPnt heavy (some subRoot)
  t.setLink newBalPnt heavy.flip (some balPnt)

/-- The balance factors of a double rotation, by the old one of the new balance point. -/
def doubleFactors (t : TreeRoot α) (heavy : Side) (balPnt subRoot : α) (bf subRootBf : Int) :
    Option (TreeRoot α) :=
  if bf = 0 then some ((t.setBf balPnt 0).setBf subRoot subRootBf)
  else if bf = weight heavy then some ((t.setBf balPnt (-weight heavy)).setBf subRoot subRootBf)
  else if bf = -weight heavy then some ((t.setBf balPnt 0).setBf subRoot (weight heavy))
  else none

/-- `insert_rotate`. -/
def insertRotate (t : TreeRoot α) (balPnt : α) (balPntPar : Option α) (subRoot : α) (heavy : Side) :
    Option (TreeRoot α) :=
  if t.bf subRoot = weight heavy then
    let t := rotateSingle t heavy balPnt subRoot
    let t := (t.setBf balPnt 0).setBf subRoot 0
    some (relink t balPnt balPntPar subRoot)
  else do
    let newBalPnt ← t.links subRoot heavy.flip
    let bf := t.bf newBalPnt
    let t := rotateDouble t heavy balPnt subRoot newBalPnt
    let t ← doubleFactors t heavy balPnt subRoot bf 0
    let t := t.setBf newBalPnt 0
    return relink t balPnt balPntPar newBalPnt

/-- The side on which a comparison sends the search, as in `if (val == 1) ... else ...`. -/
def sideOf (val : Int) : Side := if val = 1 then .right else .left

/-- The balance factor of the last unbalanced node is set, or the tree rotated. The number is
the length of the way to the new node, as it is recorded in `max_depth`. -/
def rebalanceInsert (t : TreeRoot α) (s : Search α) (subRoot : α) (newBf : Int) :
    Option (Nat × TreeRoot α) :=
  if t.bf s.lastUnbal = 0 then some (s.traverse.length + 1, t.setBf s.lastUnbal newBf)
  else if t.bf s.lastUnbal + newBf = 0 then some (s.traverse.length, t.setBf s.lastUnbal 0)
  else do
    let t ← insertRotate t s.lastUnbal s.lastUnbalPar subRoot (sideOf newBf)
    return (s.traverse.length, t)

/-- The part of `tree_insert` behind the search. -/
def insertAt (cmp : α → α → Int) (t : TreeRoot α) (node : α) (s : Search α) : Option (TreeRoot α) := do
  let par ← s.par
  let t := t.setLink par (sideOf s.val) (some node)
  let t := { t with nNodes := t.nNodes + 1, traverse := s.traverse }
  let newBf := cmp node s.lastUnbal
  let subRoot ← t.links s.lastUnbal (sideOf newBf)
  let t ← setFactors cmp node s.traverse.length (some subRoot) t
  let (depth, t) ← rebalanceInsert t s subRoot newBf
  return if depth > t.maxDepth then { t with maxDepth := depth } else t

/-- `tree_insert`. -/
def treeInsert (cmp : α → α → Int) (t : TreeRoot α) (node : α) : Option (Bool × TreeRoot α) :=
  let t := chkTraverse t
  let t := (t.setLink node .right none).setLink node .left none
  let t := t.setBf node 0
  match t.root with
  | none => some (true, { t with root := some node, nNodes := 1, maxDepth := 1 })
  | some root => do
    let (found, s) ← insertSearch cmp t node t.traverseLen (some root) ⟨none, 0, root, none, []⟩
    if found then return (false, { t with traverse := s.traverse })
    else return (true, ← insertAt cmp t node s)

/-! ### tree_delete -/

/-- Whether a single rotation will do. -/
def isSingle (t : TreeRoot α) (subRoot : α) (heavy : Side) : Option Bool :=
  if t.bf subRoot = weight heavy then some true
  else if t.bf subRoot = 0 then
    (t.links subRoot heavy.flip).map fun inner => decide (t.bf inner = -weight heavy)
  else some false

/-- `delete_rotate`, and whether the depth changed. -/
def deleteRotate (t : TreeRoot α) (balPnt : α) (balPntPar : Option α) (subRoot : α) (heavy : Side) :
    Option (Bool × TreeRoot α) := do
  let oldSubRootBf := t.bf subRoot
  let single ← isSingle t subRoot heavy
  if single then
    let t := rotateSingle t heavy balPnt subRoot
    let t :=
      if oldSubRootBf = weight heavy then (t.setBf balPnt 0).setBf subRoot 0
      else (t.setBf balPnt (weight heavy)).setBf subRoot (-weight heavy)
    return (decide (t.bf subRoot = 0), relink t balPnt balPntPar subRoot)
  else do
    let newBalPnt ← t.links subRoot heavy.flip
    let bf := t.bf newBalPnt
    let t := rotateDouble t heavy balPnt subRoot newBalPnt
    let t ← doubleFactors t heavy balPnt subRoot bf (oldSubRootBf + weight heavy)
    let t := t.setBf newBalPnt (if oldSubRootBf = 0 then weight heavy else 0)
    return (decide (t.bf newBalPnt = 0), relink t balPnt balPntPar newBalPnt)

/-- The search of `tree_delete`; the result is the vector, or `none` if the node is not there. -/
def deleteSearch (cmp : α → α → Int) (t : TreeRoot α) (node : α) :
    Nat → Option α → List (TreePos α) → Option (Option (List (TreePos α)))
  | _, none, _ => some none
  | 0, some _, _ => none
  | room + 1, some cur, traverse =>
    if t.bf cur < -1 ∨ t.bf cur > 1 then none
    else if cmp node cur = -1 then
      deleteSearch cmp t node room (t.links cur .left) (⟨some cur, .lss⟩ :: traverse)
    else if cmp node cur = 0 then
      if cur = node then some (some traverse) else none
    else if cmp node cur = 1 then
      deleteSearch cmp t node room (t.links cur .right) (⟨some cur, .gtr⟩ :: traverse)
    else none

/-- The search for the replacement, down one side; the entries it adds to the vector. -/
def selectLoop (t : TreeRoot α) (s : Side) : Nat → Option α → List (TreePos α) →
    Option (List (TreePos α))
  | _, none, sel => some sel
  | 0, some _, _ => none
  | room + 1, some cur, sel =>
    if t.bf cur < -1 ∨ t.bf cur > 1 then none
    else selectLoop t s room (t.links cur s) (⟨some cur, stateOf s⟩ :: sel)

/-- Store `cur` in the link that the entries above lead to. -/
def replace (t : TreeRoot α) (above : List (TreePos α)) (cur : Option α) : Option (TreeRoot α) :=
  match above with
  | [] => some { t with root := cur }
  | pos :: _ => do
    let par ← pos.ptr
    return t.setLink par (if pos.state = .lss then .left else .right) cur

/-- `tree_delete` of a node with two children, replaced by the next node on side `s`. The
entries are those above the place from which the replacement was taken. -/
def deleteInner (t : TreeRoot α) (node : α) (above : List (TreePos α)) (s : Side) :
    Option (List (TreePos α) × TreeRoot α) := do
  let sel ← selectLoop t s.flip (t.traverseLen - (above.length + 1)) (t.links node s) []
  match sel with
  | [] => none
  | pos :: sel => do
    let cur ← pos.ptr
    -- unlink selected node
    let t ← replace t (sel ++ ⟨some node, stateOf s⟩ :: above) (t.links cur s)
    -- update selected node's state with target state
    let t := t.setBf cur (t.bf node)
    let t := t.setLink cur .right (t.links node .right)
    let t := t.setLink cur .left (t.links node .left)
    let t ← replace t above (some cur)
    return (sel ++ ⟨some cur, stateOf s⟩ :: above, t)

/-- The loop that rebalances up the path. -/
def rebalance : List (TreePos α) → TreeRoot α → Option (TreeRoot α)
  | [], t => some t
  | pos :: above, t => do
    let cur ← pos.ptr
    let heavy ←
      match pos.state with
      | .lss => some Side.right
      | .gtr => some Side.left
      | _ => none
    if t.bf cur = 0 then return t.setBf cur (weight heavy)
    else if t.bf cur + weight heavy = 0 then rebalance above (t.setBf cur 0)
    else do
      let subRoot ← t.links cur heavy
      let balPntPar := above.head?.bind TreePos.ptr
      let (changed, t) ← deleteRotate t cur balPntPar subRoot heavy
      if changed then rebalance above t else return t

/-- The side from which the replacement of an inner node is taken. -/
def replacementSide (bf : Int) (level : Nat) : Side :=
  if bf = 0 then (if level % 2 = 1 then .right else .left) else sideOf bf

/-- The node is unlinked; the entries are those above the place that became lower. -/
def unlink (t : TreeRoot α) (node : α) (above : List (TreePos α)) :
    Option (List (TreePos α) × TreeRoot α) :=
  if t.links node .left = none then (replace t above (t.links node .right)).map fun t => (above, t)
  else if t.links node .right = none then
    (replace t above (t.links node .left)).map fun t => (above, t)
  else deleteInner t node above (replacementSide (t.bf node) above.length)

/-- The end of `tree_delete`: adjust maximum height. -/
def adjustDepth (t : TreeRoot α) (oldRoot : α) (oldRootBf : Int) : TreeRoot α :=
  let lower :=
    match t.root with
    | none => true
    | some root =>
      (oldRoot = root ∧ oldRootBf ≠ 0 ∧ t.bf root = 0) ∨ (oldRoot ≠ root ∧ t.bf root = 0)
  if lower then { t with maxDepth := (t.maxDepth + 2 ^ 64 - 1) % 2 ^ 64 } else t

/-- `tree_delete`. -/
def treeDelete (cmp : α → α → Int) (t : TreeRoot α) (node : α) : Option (Bool × TreeRoot α) := do
  let oldRoot ← t.root
  let oldRootBf := t.bf oldRoot
  let t := chkTraverse t
  match ← deleteSearch cmp t node t.traverseLen (some oldRoot) [] with
  | none => return (false, t)
  | some above => do
    let (path, t) ← unlink { t with nNodes := t.nNodes - 1 } node above
    let t ← rebalance path t
    let t := adjustDepth t oldRoot oldRootBf
    -- the vector is given back with the last node
    return (true, { t with
      traverse := [], traverseLen := if t.nNodes = 0 then 0 else t.traverseLen })

end Model

end Coda.Rvm

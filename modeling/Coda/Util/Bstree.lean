import Coda.Lib.LinkedTree

/-!
The binary search trees of the utility library (`coda-src/util/bstree.cc`).

A node is its address, so that nodes with equal keys are ordered by their addresses. The nodes of
all trees are one store: `mytree` tells on which tree a node is. Results are `none` where the
source calls `abort` or where a loop does not end.

What the source does on both sides in mirror image (`FIRST` and `LAST`, `BstGetMin` and
`BstGetMax`, the two orders of iteration) is written once, for one side.
-/

namespace Coda.Util

open Coda.Lib

/-- `bstree`, with the fields of all nodes. -/
structure Bstree (α τ : Type) where
  this : τ
  root : Option α
  cnt : Int
  mytree : α → Option τ
  parent : α → Option α
  child : Links α

section Model

variable {α τ : Type} [LinearOrder α] [DecidableEq τ]

def Bstree.setChild (t : Bstree α τ) (a : α) (s : Side) (p : Option α) : Bstree α τ :=
  { t with child := t.child.set a s p }

def Bstree.setParent (t : Bstree α τ) (a : α) (p : Option α) : Bstree α τ :=
  { t with parent := Function.update t.parent a p }

/-- `ZERONODE`. -/
def zeroNode (t : Bstree α τ) (n : α) : Bstree α τ :=
  { t with
    mytree := Function.update t.mytree n none
    parent := Function.update t.parent n none
    child := (t.child.set n .left none).set n .right none }

/-- No way in the tree is longer than its number of nodes. -/
def Bstree.bound (t : Bstree α τ) : Nat := t.cnt.toNat + 1

def extremeLoop (t : Bstree α τ) (s : Side) : Nat → α → Option α
  | 0, _ => none
  | fuel + 1, n =>
    match t.child n s with
    | none => some n
    | some next => extremeLoop t s fuel next

/-- `FIRST` for the left side, `LAST` for the right side. -/
def extreme (t : Bstree α τ) (s : Side) (r : α) : Option α := extremeLoop t s t.bound r

/-- `SPLICE`. -/
def splice (t : Bstree α τ) (n1 : α) (n2 : Option α) : Bstree α τ :=
  let par := t.parent n1
  let t :=
    match par with
    | none => { t with root := n2 }
    | some p => if t.child p .left = some n1 then t.setChild p .left n2 else t.setChild p .right n2
  match n2 with
  | none => t
  | some n => t.setParent n par

/-- `bsnode::tree`. -/
def tree (t : Bstree α τ) (b : α) : Option (Option τ) :=
  if t.mytree b = none ∧ (t.parent b ≠ none ∨ t.child b .left ≠ none ∨ t.child b .right ≠ none) then
    none
  else some (t.mytree b)

/-- The comparison, with ties broken using addresses. -/
def breakTie (cmp : α → α → Int) (a b : α) : Int :=
  if cmp a b = 0 then (if b < a then 1 else if a < b then -1 else 0) else cmp a b

def insertLoop (cmp : α → α → Int) (t : Bstree α τ) (b : α) : Nat → α → Option (Bstree α τ)
  | 0, _ => none
  | fuel + 1, curr =>
    let res := breakTie cmp b curr
    if res = 0 then none
    else
      let s : Side := if res < 0 then .left else .right
      match t.child curr s with
      | none => some ((t.setParent b (some curr)).setChild curr s (some b))
      | some next => insertLoop cmp t b fuel next

/-- The node is linked to the tree. -/
def attach (cmp : α → α → Int) (t : Bstree α τ) (b : α) : Option (Bstree α τ) :=
  match t.root with
  | none => some { t with root := some b }
  | some root => insertLoop cmp t b t.bound root

/-- `bstree::insert`. -/
def insert (cmp : α → α → Int) (t : Bstree α τ) (b : α) : Option (Bstree α τ) := do
  let owner ← tree t b
  if owner ≠ none then none
  else do
    let t ← attach cmp t b
    return { t with mytree := Function.update t.mytree b (some t.this), cnt := t.cnt + 1 }

/-- Node `n` takes over the child of `b` on one side. -/
def adopt (t : Bstree α τ) (b n : α) (s : Side) : Bstree α τ :=
  let t := t.setChild n s (t.child b s)
  match t.child n s with
  | none => t
  | some c => t.setParent c (some n)

/-- The promoted node `n` is plugged in for the one that is removed. -/
def plugIn (t : Bstree α τ) (b n : α) : Bstree α τ :=
  adopt (adopt (splice t b (some n)) b n .left) b n .right

/-- The node leaves the tree. -/
def unplug (t : Bstree α τ) (b : α) : Option (Bstree α τ) :=
  match t.child b .left, t.child b .right with
  | none, right => some (splice t b right)
  | left, none => some (splice t b left)
  | some _, some right => do
    let n ← extreme t .left right
    return plugIn (splice t n (t.child n .right)) b n

/-- `bstree::remove`. -/
def remove (t : Bstree α τ) (b : α) : Option (Option α × Bstree α τ) := do
  let owner ← tree t b
  if owner ≠ some t.this then return (none, t)
  else do
    let t := zeroNode (← unplug t b) b
    return (some b, { t with cnt := t.cnt - 1 })

/-- `bstree::first` and `bstree::last`. -/
def firstOn (t : Bstree α τ) (s : Side) : Option (Option α) :=
  match t.root with
  | none => some none
  | some root => (extreme t s root).map some

/-- `bstree::get`, of the minimum (left side) or the maximum (right side). -/
def get (t : Bstree α τ) (s : Side) : Option (Option α × Bstree α τ) :=
  match t.root with
  | none => some (none, t)
  | some root => do
    let b ← extreme t s root
    let t := zeroNode (splice t b (t.child b s.flip)) b
    return (some b, { t with cnt := t.cnt - 1 })

/-! ### bstree_iterator -/

/-- `cbsnode`: -1, 0 or a node. -/
inductive Cursor (α : Type) where
  | notStarted
  | finished
  | inProgress (n : α)
deriving DecidableEq

/-- Up, while the node is on side `s` of its parent. -/
def climb (t : Bstree α τ) (s : Side) : Nat → α → Option (Option α)
  | 0, _ => none
  | fuel + 1, n =>
    match t.parent n with
    | none => some none
    | some p => if t.child p s = some n then climb t s fuel p else some (some p)

/-- The node after the current one. -/
def advance (t : Bstree α τ) (s : Side) : Cursor α → Option (Option α)
  | .notStarted => firstOn t s.flip
  | .finished => some none
  | .inProgress n =>
    match t.child n s with
    | none => climb t s t.bound n
    | some m => (extreme t s.flip m).map some

/-- `bstree_iterator::operator()`, towards the right side (ascending) or the left one. -/
def next (t : Bstree α τ) (s : Side) (c : Cursor α) : Option (Option α) := do
  let n ← advance t s c
  -- prevent looping
  return if n ≠ none ∧ n.map Cursor.inProgress = some c then none else n

def iterateLoop (t : Bstree α τ) (s : Side) : Nat → Cursor α → Option (List α)
  | 0, _ => none
  | fuel + 1, c => do
    match ← next t s c with
    | none => return []
    | some n => return n :: (← iterateLoop t s fuel (.inProgress n))

/-- All nodes that an iterator returns before it returns 0. -/
def iterate (t : Bstree α τ) (s : Side) : Option (List α) := iterateLoop t s t.bound .notStarted

/-- The test of the sanity checker. -/
def outOfOrder (cmp : α → α → Int) (a b : α) : Prop := cmp a b > 0 ∨ (cmp a b = 0 ∧ b ≤ a)

instance (cmp : α → α → Int) (a b : α) : Decidable (outOfOrder cmp a b) := by
  unfold outOfOrder
  infer_instance

def isOrderedLoop (cmp : α → α → Int) (t : Bstree α τ) : Nat → Cursor α → Option α → Option Bool
  | 0, _, _ => none
  | fuel + 1, c, prev => do
    match ← next t .right c with
    | none => return true
    | some curr =>
      if (∃ a ∈ prev, outOfOrder cmp a curr) ∨ (∃ a ∈ t.child curr .left, outOfOrder cmp a curr) ∨
          (∃ a ∈ t.child curr .right, outOfOrder cmp curr a) then return false
      else isOrderedLoop cmp t fuel (.inProgress curr) (some curr)

/-- `bstree::IsOrdered`. -/
def isOrdered (cmp : α → α → Int) (t : Bstree α τ) : Option Bool :=
  isOrderedLoop cmp t t.bound .notStarted none

end Model

end Coda.Util

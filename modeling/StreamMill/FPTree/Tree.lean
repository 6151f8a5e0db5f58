import Mathlib.Logic.Function.Basic
import Mathlib.Data.List.Sort

/-!
# StreamMill.FPTree.Tree

The FP-trees and pattern trees of `fptree.c`, compiled without `SWIM`. The siblings below a node
have different items, so the items on the way from the root to a node stand for its address.
-/

namespace StreamMill.FPTree

/-- The root is `[]`. -/
abbrev Adr := List Nat

/-- `struct transaction`, without `len`. -/
structure Trans where
  support : Nat
  items : List Nat
  deriving DecidableEq

/-- `NIL`, `OK`, `FP_FAIL` -/
inductive Flag where
  | nil
  | ok
  | fail
  deriving DecidableEq

structure Node where
  support : Nat
  flag : Flag
  returnFreqAdr : Option Adr

structure Tree where
  maxItems : Nat
  node : Adr → Node
  /-- The nodes, the last one made first. -/
  nodes : List Adr
  /-- The items of `leftChild` and its siblings. -/
  children : Adr → List Nat
  singleSupport : Nat → Nat

def newTree (maxItems : Nat) : Tree where
  maxItems := maxItems
  node := fun _ => ⟨0, .nil, none⟩
  nodes := []
  children := fun _ => []
  singleSupport := fun _ => 0

/-- The root has `-1`. -/
def itemNo (a : Adr) : Int :=
  match a.getLast? with
  | some i => i
  | none => -1

/-- The chain from `header[i]` on. -/
def Tree.header (tree : Tree) (i : Nat) : List Adr := tree.nodes.filter fun a => a.getLast? = some i

def Tree.visit (tree : Tree) (a : Adr) (support : Nat) : Tree :=
  { tree with
    node := Function.update tree.node a
      { tree.node a with support := (tree.node a).support + support } }

def Tree.addSingle (tree : Tree) (i support : Nat) : Tree :=
  { tree with
    singleSupport := Function.update tree.singleSupport i (tree.singleSupport i + support) }

def Tree.setReturn (tree : Tree) (a : Adr) (r : Option Adr) : Tree :=
  { tree with node := Function.update tree.node a { tree.node a with returnFreqAdr := r } }

/-- A new node below `parent`, whose place among its siblings is given. -/
def Tree.newNode (tree : Tree) (parent : Adr) (i support : Nat) (siblings : List Nat) : Tree :=
  { tree with
    node := Function.update tree.node (parent ++ [i]) ⟨support, .nil, none⟩
    nodes := (parent ++ [i]) :: tree.nodes
    children := Function.update (Function.update tree.children (parent ++ [i]) []) parent siblings
    singleSupport := Function.update tree.singleSupport i (tree.singleSupport i + support) }

/-- The first loop of `InsertTransAdr`: down as long as there is a child with the item. -/
def descend (support : Nat) (returnFreqAdr : Option Adr) :
    Tree → Adr → List Nat → Tree × Adr × List Nat
  | tree, parent, [] => (tree, parent, [])
  | tree, parent, curItem :: items =>
    if curItem ∈ tree.children parent then
      let tree := (tree.visit (parent ++ [curItem]) support).addSingle curItem support
      let tree := if items = [] then tree.setReturn (parent ++ [curItem]) returnFreqAdr else tree
      descend support returnFreqAdr tree (parent ++ [curItem]) items
    else (tree, parent, curItem :: items)

/-- The second loop: a path of new nodes, each in front of its siblings. -/
def grow (support : Nat) (returnFreqAdr : Option Adr) : Tree → Adr → List Nat → Tree
  | tree, _, [] => tree
  | tree, parent, curItem :: items =>
    let tree := tree.newNode parent curItem support (curItem :: tree.children parent)
    let tree := if items = [] then tree.setReturn (parent ++ [curItem]) returnFreqAdr else tree
    grow support returnFreqAdr tree (parent ++ [curItem]) items

def insertTransAdr (tree : Tree) (trans : Trans) (returnFreqAdr : Option Adr) : Tree × Nat :=
  let (tree, parent, items) :=
    descend trans.support returnFreqAdr (tree.visit [] trans.support) [] trans.items
  (grow trans.support returnFreqAdr tree parent items, items.length)

def insertTrans (tree : Tree) (trans : Trans) : Tree × Nat := insertTransAdr tree trans none

def seek (curItem : Nat) : List Nat → Option Nat
  | [] => none
  | i :: siblings =>
    if i = curItem then some i
    else if i > curItem then none
    else
      match siblings with
      | [] => some i
      | j :: _ => if j ≤ curItem then seek curItem siblings else some i

/-- `leftsibling->sibling = node` -/
def insertAfter (left i : Nat) : List Nat → List Nat
  | [] => []
  | j :: siblings => if j = left then j :: i :: siblings else j :: insertAfter left i siblings

def place (leftsibling : Option Nat) (i : Nat) (siblings : List Nat) : List Nat :=
  match leftsibling with
  | some left => insertAfter left i siblings
  | none => i :: siblings

end StreamMill.FPTree

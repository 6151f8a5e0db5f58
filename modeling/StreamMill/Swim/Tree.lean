import StreamMill.FPTree.Represents
import StreamMill.Lib.Walk

/-!
# StreamMill.Swim.Tree

The trees of `fptree.c` as they lie in memory, compiled with `SWIM`: nodes with their links, the
header table and the counters. The items of a node are a `short` and its two window ids are
`unsigned short`; the supports are `int`.
-/

namespace StreamMill.Swim

open Lib
open FPTree (Trans)

/-- A `Node *` other than `NULL`. -/
abbrev Ptr := Nat

def root : Ptr := 0

inductive Flag where
  | nil
  | ok
  | fail
  | expired
  deriving DecidableEq

structure Node where
  itemNo : BitVec 16
  support : BitVec 32
  flag : Flag
  parent : Option Ptr
  sibling : Option Ptr
  leftChild : Option Ptr
  nextHeader : Option Ptr
  prevHeader : Option Ptr
  /-- `start` and `end` -/
  startId : BitVec 16
  endId : BitVec 16
  returnFreqAdr : Option Ptr
  deriving DecidableEq

def Node.zero : Node := ⟨0, 0, .nil, none, none, none, none, none, 0, 0, none⟩

structure Tree where
  maxItems : Nat
  totalNodes : Int
  /-- The nodes of the tree with its root. -/
  node : Ptr → Node
  /-- What `new_node` gives next. No address is given twice: nothing holds on to a deleted node. -/
  fresh : Ptr
  header : Nat → Option Ptr
  redundancy : Nat → Int
  singleSupport : Nat → BitVec 32

inductive Fault where
  /-- A loop does not end. -/
  | endless
  /-- A read outside the header table, or through `NULL`. -/
  | outside
  deriving DecidableEq

def Tree.setNode (tree : Tree) (p : Ptr) (f : Node → Node) : Tree :=
  { tree with node := Function.update tree.node p (f (tree.node p)) }

def newTree (maxItems : Nat) : Tree where
  maxItems := maxItems
  totalNodes := 0
  node := fun _ => { Node.zero with itemNo := -1 }
  fresh := 1
  header := fun _ => none
  redundancy := fun _ => 0
  singleSupport := fun _ => 0

def Tree.chain (tree : Tree) (i : Nat) : Except Fault (List Ptr) :=
  visits .endless (fun p => (tree.node p).nextHeader) tree.fresh (tree.header i)

def Tree.siblings (tree : Tree) (p : Ptr) : Except Fault (List Ptr) :=
  visits .endless (fun p => (tree.node p).sibling) tree.fresh (tree.node p).leftChild

def emptyTree (tree : Tree) : Except Fault Tree := do
  let _ ← (List.range tree.maxItems).mapM tree.chain
  return { tree with
    totalNodes := 0
    node := Function.update tree.node root { Node.zero with itemNo := -1 }
    header := fun _ => none
    redundancy := fun _ => 0
    singleSupport := fun _ => 0 }

def Tree.addSupport (tree : Tree) (p : Ptr) (support : Nat) : Tree :=
  tree.setNode p fun n => { n with support := n.support + BitVec.ofNat 32 support }

def Tree.addSingle (tree : Tree) (i support : Nat) : Tree :=
  { tree with
    singleSupport := Function.update tree.singleSupport i
      (tree.singleSupport i + BitVec.ofNat 32 support) }

/-- The new node goes behind `leftsibling`, or before all children of `parent`. -/
def Tree.linkSibling (tree : Tree) (parent : Ptr) (leftsibling : Option Ptr) (node : Ptr) : Tree :=
  match leftsibling with
  | some left =>
    let tree := tree.setNode node fun n => { n with sibling := (tree.node left).sibling }
    tree.setNode left fun n => { n with sibling := some node }
  | none =>
    let tree := tree.setNode node fun n => { n with sibling := (tree.node parent).leftChild }
    tree.setNode parent fun n => { n with leftChild := some node }

def Tree.linkHeader (tree : Tree) (i : Nat) (node : Ptr) : Tree :=
  let firstChain := tree.header i
  let tree := tree.setNode node fun n => { n with nextHeader := firstChain, prevHeader := none }
  let tree :=
    match firstChain with
    | some first => tree.setNode first fun n => { n with prevHeader := some node }
    | none => tree
  { tree with header := Function.update tree.header i (some node) }

/-- `new_node`, the fields of the new node, its links and the counters of its item. -/
def Tree.addNode (tree : Tree) (parent : Ptr) (leftsibling : Option Ptr) (i support : Nat)
    (windowid : BitVec 16) (returnFreqAdr : Option Ptr) : Tree :=
  let node := tree.fresh
  let tree := { tree with
    fresh := node + 1
    node := Function.update tree.node node { Node.zero with
      itemNo := BitVec.ofNat 16 i
      support := BitVec.ofNat 32 support
      parent := some parent
      startId := windowid
      endId := windowid
      returnFreqAdr := returnFreqAdr } }
  let tree := ((tree.linkSibling parent leftsibling node).linkHeader i node).addSingle i support
  { tree with
    totalNodes := tree.totalNodes + 1
    redundancy := Function.update tree.redundancy i (tree.redundancy i + 1) }

def Tree.findChild (tree : Tree) (parent : Ptr) (curItem : Nat) : Except Fault (Option Ptr) :=
  walk .endless (fun p => (tree.node p).itemNo.toInt ≠ curItem) (fun p => (tree.node p).sibling)
    tree.fresh (tree.node parent).leftChild

/-- The first loop of `InsertTransAdr`. -/
def descend (support : Nat) (returnFreqAdr : Option Ptr) :
    Tree → Ptr → List Nat → Except Fault (Tree × Ptr × List Nat)
  | tree, parent, [] => .ok (tree, parent, [])
  | tree, parent, curItem :: items => do
    match ← tree.findChild parent curItem with
    | some node =>
      let tree := tree.addSupport node support
      let tree :=
        if items = [] then tree.setNode node fun n => { n with returnFreqAdr := returnFreqAdr }
        else tree
      descend support returnFreqAdr (tree.addSingle curItem support) node items
    | none => return (tree, parent, curItem :: items)

def grow (support : Nat) (returnFreqAdr : Option Ptr) : Tree → Ptr → List Nat → Tree
  | tree, _, [] => tree
  | tree, parent, curItem :: items =>
    grow support returnFreqAdr
      (tree.addNode parent none curItem support 0 (if items = [] then returnFreqAdr else none))
      tree.fresh items

def insertTransAdr (tree : Tree) (trans : Trans) (returnFreqAdr : Option Ptr) :
    Except Fault (Tree × Nat) := do
  let (tree, parent, items) ←
    descend trans.support returnFreqAdr (tree.addSupport root trans.support) root trans.items
  return (grow trans.support returnFreqAdr tree parent items, items.length)

def insertTrans (tree : Tree) (trans : Trans) : Except Fault (Tree × Nat) :=
  insertTransAdr tree trans none

def insertAll (tree : Tree) (ts : List Trans) : Except Fault Tree :=
  ts.foldlM (fun tree t => (insertTrans tree t).map Prod.fst) tree

end StreamMill.Swim

import StreamMill.RTree.Rectangle
import Mathlib.Logic.Function.Basic

/-!
# StreamMill.RTree.Block

The index file of the R-tree (`rtree.h`, `block.cc`): blocks of `blockSz` bytes, read and written
whole, and the free block chain. A `long` is four bytes, as `keySz` says.

A block on the free chain keeps its old contents; its first four bytes (the node type and part of
the counter) hold the number of the next free block. Block pointers are file offsets, that is block
numbers times `blockSz`.
-/

namespace StreamMill.RTree

def blockSz : Nat := 2048
def keySz : Nat := 16
def entrySz : Nat := 21
def overhead : Nat := 1 + 4 + 2 * 4

def maxEntries : Nat := (blockSz - overhead) / entrySz

inductive NodeType where
  /-- `'l'` -/
  | leaf
  /-- `'n'` -/
  | inner
  deriving DecidableEq, Repr

structure Item where
  rect : Rect
  ptr : Nat
  del : Bool
  deriving DecidableEq, Repr

/-- A block in memory. All slots are there; only the first `counter` are entries. -/
structure Node where
  nodetype : NodeType
  counter : Nat
  nextlptr : Nat
  prevlptr : Nat
  items : Nat → Item

def Node.entries (n : Node) : List Item := (List.range n.counter).map n.items

inductive Page where
  /-- Past the end of the file. -/
  | absent
  | node (n : Node)
  /-- On the free chain. -/
  | free (next : Nat) (n : Node)

inductive Err where
  | readBlk
  | noParent
  | noPointer
  | pickedNext
  | noNode
  /-- Not an error of the source: the bound on the descent of `chooseLeaf` was too small. -/
  | fuel
  deriving DecidableEq, Repr

/-- The R-tree (super block and index file) and the static buffers that all its routines share. -/
structure State where
  fbInd : Nat
  tbInd : Nat
  lptr : Nat
  m : Nat
  index : Nat → Page
  buffer : Node
  itembuf : Nat → Item
  split0 : Node
  split1 : Node
  blkno0 : Nat
  blkno1 : Nat
  coverr0 : Rect
  coverr1 : Rect

@[simp] theorem ok_bind {α β : Type} (a : α) (f : α → Except Err β) :
    (Except.ok a >>= f) = f a := rfl

/-- `read_blk` into a local buffer. -/
def peekBlk (s : State) (blkno : Nat) : Except Err Node :=
  match s.index blkno with
  | .absent => .error .readBlk
  | .node n => .ok n
  | .free _ n => .ok n

def readBlk (s : State) (blkno : Nat) : Except Err State := do
  let n ← peekBlk s blkno
  return { s with buffer := n }

def readBlkByPtr (s : State) (ptr : Nat) : Except Err State :=
  if ptr % blockSz = 0 then readBlk s (ptr / blockSz) else .error .readBlk

def writeBlk (s : State) (blkno : Nat) (n : Node) : State :=
  { s with index := Function.update s.index blkno (.node n) }

def writeBlkByPtr (s : State) (ptr : Nat) (n : Node) : Except Err State :=
  if ptr % blockSz = 0 then .ok (writeBlk s (ptr / blockSz) n) else .error .readBlk

def initRtree (s : State) : State :=
  { s with fbInd := 1, tbInd := 1, lptr := blockSz, m := 2 }

def updateBlockEntry (s : State) (blkno num : Nat) (mbr : Rect) (ptr : Nat) :
    Except Err State := do
  let n ← peekBlk s blkno
  let item := { n.items num with rect := mbr, ptr := ptr }
  return writeBlk s blkno { n with items := Function.update n.items num item }

/-- `free_block` with flag 1: take a leaf out of the leaf chain. -/
def unlinkLeaf (s : State) (blkno : Nat) : Except Err State := do
  let n ← peekBlk s blkno
  match n.nodetype with
  | .inner => return s
  | .leaf =>
    let prevlptr := n.prevlptr
    let nextlptr := n.nextlptr
    let s ←
      if prevlptr ≠ 0 then do
        let p ← peekBlk s (prevlptr / blockSz)
        writeBlkByPtr s prevlptr { p with nextlptr := nextlptr }
      else if nextlptr = 0 then pure { s with lptr := blockSz }
      else pure { s with lptr := nextlptr }
    if nextlptr ≠ 0 then do
      let p ← peekBlk s (nextlptr / blockSz)
      writeBlkByPtr s nextlptr { p with prevlptr := prevlptr }
    else return s

/-- The block a page holds in memory; a block past the end of the file reads as `buffer`. -/
def Page.contents (p : Page) (dflt : Node) : Node :=
  match p with
  | .absent => dflt
  | .node n => n
  | .free _ n => n

/-- Put the block back into the free block list. Flag 0: the leaf chain is already updated. -/
def freeBlock (s : State) (blkno : Nat) (flag : Nat) : Except Err State := do
  if blkno = 1 then return initRtree s
  let s ← if flag = 1 then unlinkLeaf s blkno else pure s
  let page := Page.free s.fbInd ((s.index blkno).contents s.buffer)
  return { s with index := Function.update s.index blkno page, fbInd := blkno }

/-- A fresh block: the head of the free chain, else the block at the end of the file. -/
def getNewblock (s : State) : Except Err (Nat × State) :=
  if s.fbInd = s.tbInd then
    .ok (s.fbInd, { s with fbInd := s.fbInd + 1, tbInd := s.fbInd + 1 })
  else
    match s.index s.fbInd with
    | .free next n => .ok (s.fbInd, { s with buffer := n, fbInd := next })
    | _ => .error .readBlk

end StreamMill.RTree

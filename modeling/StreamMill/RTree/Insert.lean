import StreamMill.RTree.Block

/-!
# StreamMill.RTree.Insert

Guttman's routines as `rtree.cc` has them: `choose_leaf`, `pick_seeds`, `pick_next`, `split_node`,
`adjust_tree_with_split`, `adjust_tree_without_split`, and `insert_rtree_aux` over them.

The ancestor stack `anc` is a list, its top first. `-DBL_MAX` and `DBL_MAX` are `none`: areas are
exact, so every enlargement lies strictly between them.
-/

namespace StreamMill.RTree

/-- One pass of the scan of a node in `choose_leaf`. -/
def leastStep (mbr : Rect) (items : Nat → Item) (acc : Option (Int × Nat)) (i : Nat) :
    Option (Int × Nat) :=
  let r := (items i).rect
  let enlarge := area (compose mbr r) - area r
  match acc with
  | none => some (enlarge, i)
  | some (least, ind) => if enlarge < least then some (enlarge, i) else some (least, ind)

def leastEnlargement (mbr : Rect) (items : Nat → Item) (n : Nat) : Option (Int × Nat) :=
  (List.range n).foldl (leastStep mbr items) none

/-- The loop of `choose_leaf`; `buffer` holds block `res`. -/
def chooseLeafLoop (mbr : Rect) : Nat → State → Nat → List Nat →
    Except Err (State × Nat × List Nat)
  | 0, _, _, _ => .error .fuel
  | fuel + 1, s, res, anc =>
    match s.buffer.nodetype with
    | .leaf => .ok (s, res, anc)
    | .inner =>
      match leastEnlargement mbr s.buffer.items s.buffer.counter with
      | none => .error .noNode
      | some (_, ind) => do
        let ptr := (s.buffer.items ind).ptr
        let s ← readBlkByPtr s ptr
        chooseLeafLoop mbr fuel s (ptr / blockSz) (res :: anc)

/-- The leaf for `mbr` and its ancestors. No path has more blocks than the file. -/
def chooseLeaf (s : State) (mbr : Rect) : Except Err (State × Nat × List Nat) := do
  let s ← readBlkByPtr s blockSz
  chooseLeafLoop mbr s.tbInd s 1 []

/-- `d > maxd` where `maxd` starts at `-DBL_MAX`. -/
def exceeds (d : Int) : Option Int → Bool
  | none => true
  | some maxd => decide (maxd < d)

/-- The waste of putting items `i` and `j` in one group. -/
def deadSpace (items : Nat → Item) (i j : Nat) : Int :=
  let r1 := (items i).rect
  let r2 := (items j).rect
  area (compose r1 r2) - area r1 - area r2

/-- The pairs `i < j` in the order of the two loops of `pick_seeds`. -/
def seedPairs (n : Nat) : List (Nat × Nat) :=
  (List.range (n - 1)).flatMap fun i => (List.range' (i + 1) (n - (i + 1))).map fun j => (i, j)

/-- One pass through the inner loop of `pick_seeds`. -/
def seedStep (items : Nat → Item) (acc : Option Int × Nat × Nat) (p : Nat × Nat) :
    Option Int × Nat × Nat :=
  let d := deadSpace items p.1 p.2
  if exceeds d acc.1 then (some d, p.1, p.2) else acc

def pickSeeds (items : Nat → Item) (n : Nat) : Nat × Nat :=
  ((seedPairs n).foldl (seedStep items) (none, 0, 0)).2

/-- The scan of `pick_next`. The source never raises `maxdiff`. -/
def pickNext (coverr0 coverr1 : Rect) (flags : Nat → Bool) (items : Nat → Item) (n : Nat) :
    Option Nat :=
  (List.range n).foldl (fun res i =>
    if flags i then
      let r := (items i).rect
      let d0 := area (compose coverr0 r) - area coverr0
      let d1 := area (compose coverr1 r) - area coverr1
      if exceeds |d0 - d1| none then some i else res
    else res) none

/-- The groups during `split_node`. `flags i` is `entry_flag[i] == 'o'`. -/
structure Grouping where
  flags : Nat → Bool
  num0 : Nat
  num1 : Nat
  coverr0 : Rect
  coverr1 : Rect
  items0 : Nat → Item
  items1 : Nat → Item
  itembuf : Nat → Item

def usub (a b : Nat) : Nat := (a + 2 ^ 32 - b) % 2 ^ 32

/-- Which group takes the next entry in pass `i` of `split_node`. -/
def groupFlag (m i : Nat) (g : Grouping) (r : Rect) : Nat :=
  let cr0 := compose g.coverr0 r
  let cr1 := compose g.coverr1 r
  let enlarge0 := area cr0 - area g.coverr0
  let enlarge1 := area cr1 - area g.coverr1
  let flag :=
    if enlarge0 < enlarge1 ∨ (enlarge0 = enlarge1 ∧ area cr0 < area cr1) ∨
        (enlarge0 = enlarge1 ∧ area cr0 = area cr1 ∧ g.num0 < g.num1) then 0 else 1
  let flag := if usub m g.num0 = maxEntries - 1 - i ∧ flag = 1 then 0 else flag
  if usub m g.num1 = maxEntries - 1 - i ∧ flag = 0 then 1 else flag

/-- `SET_DEL(item, 0)`. -/
def Item.undelete (it : Item) : Item := { it with del := false }

def groupNext (m : Nat) (g : Grouping) (i : Nat) : Except Err Grouping :=
  match pickNext g.coverr0 g.coverr1 g.flags g.itembuf (maxEntries + 1) with
  | none => .error .pickedNext
  | some next =>
    let g := { g with flags := Function.update g.flags next false }
    let r := (g.itembuf next).rect
    let flag := groupFlag m i g r
    -- the deletion byte is cleared in `itembuf`, before the entry is copied
    let item := (g.itembuf next).undelete
    let g := { g with itembuf := Function.update g.itembuf next item }
    if flag = 0 then
      .ok { g with items0 := Function.update g.items0 g.num0 item, num0 := g.num0 + 1,
                   coverr0 := compose g.coverr0 r }
    else
      .ok { g with items1 := Function.update g.items1 g.num1 item, num1 := g.num1 + 1,
                   coverr1 := compose g.coverr1 r }

/-- The `M+1` entries: the new one first, its deletion byte left as it is in the buffer. -/
def fillItembuf (itembuf : Nat → Item) (mbr : Rect) (ptr : Nat) (n : Node) : Nat → Item :=
  fun i =>
    if i = 0 then { itembuf 0 with rect := mbr, ptr := ptr }
    else if i ≤ maxEntries then n.items (i - 1)
    else itembuf i

def seedGroups (s : State) (itembuf : Nat → Item) : Grouping :=
  let er := pickSeeds itembuf (maxEntries + 1)
  let flags := Function.update (Function.update (fun _ => true) er.1 false) er.2 false
  { flags := flags
    num0 := 1
    num1 := 1
    coverr0 := (itembuf er.1).rect
    coverr1 := (itembuf er.2).rect
    -- group 0 clears the deletion byte before the copy, group 1 after it
    items0 := Function.update s.split0.items 0 (itembuf er.1)
    items1 := Function.update s.split1.items 0 (itembuf er.2).undelete
    itembuf := itembuf }

/-- The header of a split block; the leaf pointers of an inner node are not touched. -/
def splitBlock (old : Node) (nodetype : NodeType) (num : Nat) (items : Nat → Item)
    (next prev : Nat) : Node :=
  match nodetype with
  | .leaf => { nodetype := .leaf, counter := num, nextlptr := next, prevlptr := prev,
               items := items }
  | .inner => { old with nodetype := .inner, counter := num, items := items }

def splitNode (s : State) (curblk : Nat) (mbr : Rect) (tupleptr : Nat) (nodetype : NodeType)
    (ptr0 ptr1 : Nat) : Except Err State := do
  let s ← readBlk s curblk
  let itembuf := fillItembuf s.itembuf mbr tupleptr s.buffer
  let g ← (List.range (maxEntries - 1)).foldlM (groupNext s.m) (seedGroups s itembuf)
  let s := { s with itembuf := g.itembuf, coverr0 := g.coverr0, coverr1 := g.coverr1 }
  let (blkno0, s) ← getNewblock s
  let (blkno1, s) ← getNewblock s
  let split0 := splitBlock s.split0 nodetype g.num0 g.items0 (blkno1 * blockSz) ptr0
  let split1 := splitBlock s.split1 nodetype g.num1 g.items1 ptr1 (blkno0 * blockSz)
  let s := { s with blkno0 := blkno0, blkno1 := blkno1, split0 := split0, split1 := split1 }
  return writeBlk (writeBlk s blkno0 split0) blkno1 split1

/-- The first item of a node with pointer `ptr`. -/
def findPtr (n : Node) (ptr : Nat) : Option Nat :=
  (List.range n.counter).find? fun i => (n.items i).ptr == ptr

def adjustTreeWithoutSplit (s : State) (curblk : Nat) (mbr : Rect) : List Nat → Except Err State
  | [] => if curblk = 1 then .ok s else .error .noParent
  | pblk :: anc =>
    if curblk = 1 then .ok s
    else do
      let s ← readBlk s pblk
      match findPtr s.buffer (curblk * blockSz) with
      | none => .error .noPointer
      | some i =>
        let item := s.buffer.items i
        let coverr := compose item.rect mbr
        if containedIn coverr item.rect = 0 then .ok s
        else
          let items := Function.update s.buffer.items i { item with rect := coverr }
          let s := { s with buffer := { s.buffer with items := items } }
          adjustTreeWithoutSplit (writeBlk s pblk s.buffer) pblk coverr anc

def newRoot (s : State) : State :=
  let item0 : Item := ⟨s.coverr0, s.blkno0 * blockSz, false⟩
  let item1 : Item := ⟨s.coverr1, s.blkno1 * blockSz, false⟩
  let items := Function.update (Function.update s.buffer.items 0 item0) 1 item1
  let s := { s with buffer := { s.buffer with nodetype := .inner, counter := 2, items := items } }
  writeBlk s 1 s.buffer

/-- Entry `i` becomes the entries of `split0` and `split1`; the entries after it move up. -/
def insertTwo (s : State) (n : Node) (i : Nat) : Node :=
  let moved : Nat → Item := fun j => if i + 2 ≤ j ∧ j ≤ n.counter then n.items (j - 1) else n.items j
  let item0 := { moved i with rect := s.coverr0, ptr := s.blkno0 * blockSz }
  let item1 := { moved (i + 1) with rect := s.coverr1, ptr := s.blkno1 * blockSz }
  { n with
    counter := n.counter + 1
    items := Function.update (Function.update moved i item0) (i + 1) item1 }

/-- The parent `pblk` is full: its entry `i` becomes `split0`, and the parent is split to take
`split1`. -/
def splitParent (s : State) (pblk i : Nat) : Except Err State := do
  let s' ← updateBlockEntry s pblk i s.coverr0 (s.blkno0 * blockSz)
  splitNode s' pblk s.coverr1 (s.blkno1 * blockSz) .inner (s.blkno0 * blockSz) (s.blkno1 * blockSz)

def adjustTreeWithSplit (s : State) (curblk : Nat) : List Nat → Except Err State
  | [] => if curblk = 1 then .ok (newRoot s) else .error .noParent
  | pblk :: anc =>
    if curblk = 1 then .ok (newRoot s)
    else do
      let s ← readBlk s pblk
      match findPtr s.buffer (curblk * blockSz) with
      | none => .error .noPointer
      | some i =>
        let s ←
          if s.buffer.counter = maxEntries then do
            let s ← splitParent s pblk i
            adjustTreeWithSplit s pblk anc
          else
            let s := { s with buffer := insertTwo s s.buffer i }
            adjustTreeWithoutSplit (writeBlk s pblk s.buffer) pblk
              (compose s.coverr0 s.coverr1) anc
        freeBlock s curblk 0

/-- The leaf the new entry goes to, in `buffer`; the first insertion makes the root in what
`buffer` holds. -/
def destLeaf (s : State) (mbr : Rect) : Except Err (State × Nat × List Nat) :=
  if s.fbInd = 1 ∧ s.tbInd = 1 then
    let first := { s.buffer.items 0 with del := false }
    let root : Node := { nodetype := .leaf, counter := 0, nextlptr := 0, prevlptr := 0,
                         items := Function.update s.buffer.items 0 first }
    .ok ({ s with buffer := root, fbInd := 2, tbInd := 2 }, 1, [])
  else do
    let (s, destBlk, anc) ← chooseLeaf s mbr
    let s ← readBlk s destBlk
    return (s, destBlk, anc)

/-- `blk0ptr` becomes the next pointer of the leaf before a split leaf. -/
def relinkPrev (s : State) (prevlptr : Nat) : Except Err State :=
  if prevlptr ≠ 0 then do
    let s ← readBlkByPtr s prevlptr
    let s := { s with buffer := { s.buffer with nextlptr := s.blkno0 * blockSz } }
    writeBlkByPtr s prevlptr s.buffer
  else return s

/-- `blk1ptr` becomes the previous pointer of the leaf after a split leaf. -/
def relinkNext (s : State) (nextlptr : Nat) : Except Err State :=
  if nextlptr ≠ 0 then do
    let s ← readBlkByPtr s nextlptr
    let s := { s with buffer := { s.buffer with prevlptr := s.blkno1 * blockSz } }
    writeBlkByPtr s nextlptr s.buffer
  else return s

/-- What both have in common: the block at the pointer is read, changed and written. -/
def rewriteBlk (change : State → Node → Node) (s : State) (ptr : Nat) : Except Err State :=
  if ptr ≠ 0 then do
    let s ← readBlkByPtr s ptr
    let s := { s with buffer := change s s.buffer }
    writeBlkByPtr s ptr s.buffer
  else return s

theorem relinkPrev_eq (s : State) (ptr : Nat) : relinkPrev s ptr =
    rewriteBlk (fun s n => { n with nextlptr := s.blkno0 * blockSz }) s ptr := rfl

theorem relinkNext_eq (s : State) (ptr : Nat) : relinkNext s ptr =
    rewriteBlk (fun s n => { n with prevlptr := s.blkno1 * blockSz }) s ptr := rfl

/-- The full leaf `destBlk` is split; it is in `buffer`. -/
def insertSplit (s : State) (mbr : Rect) (tplno : Nat) (destBlk : Nat) (anc : List Nat) :
    Except Err State := do
  let nextlptr := if destBlk = 1 then 0 else s.buffer.nextlptr
  let prevlptr := if destBlk = 1 then 0 else s.buffer.prevlptr
  let s ← splitNode s destBlk mbr tplno .leaf prevlptr nextlptr
  let s := if destBlk * blockSz = s.lptr then { s with lptr := s.blkno0 * blockSz } else s
  let s ← relinkPrev s prevlptr
  let s ← relinkNext s nextlptr
  adjustTreeWithSplit s destBlk anc

/-- The leaf `destBlk` has room; it is in `buffer`. The deletion byte of the slot is not set. -/
def insertNoSplit (s : State) (mbr : Rect) (tplno : Nat) (destBlk : Nat) (anc : List Nat) :
    Except Err State :=
  let num := s.buffer.counter
  let item := { s.buffer.items num with rect := mbr, ptr := tplno }
  let buffer := { s.buffer with items := Function.update s.buffer.items num item,
                                counter := num + 1 }
  let s := { s with buffer := buffer }
  adjustTreeWithoutSplit (writeBlk s destBlk s.buffer) destBlk mbr anc

def insertRtreeAux (s : State) (mbr : Rect) (tplno : Nat) : Except Err State := do
  let (s, destBlk, anc) ← destLeaf s mbr
  if s.buffer.counter = maxEntries then insertSplit s mbr tplno destBlk anc
  else insertNoSplit s mbr tplno destBlk anc

end StreamMill.RTree

import StreamMill.Swim.UnionCounts

/-!
# StreamMill.Swim.Insertions

Runs of `InsertPatternSortedly` from a new tree, and `FindStartTime` and `FindEndTime`. As long as
items and slide numbers fit in their fields, the tree has the prefixes of the patterns that were
put in, each with the slides of the first and of the last insertion that passed it.
-/

namespace StreamMill.Swim

open Lib
open FPTree (Trans Adr)

/-- A call of `InsertPatternSortedly`. -/
structure Insertion where
  trans : Trans
  windowid : Int

/-- `start` and `end` are `unsigned short`. -/
def Insertion.stamp (op : Insertion) : Trans × BitVec 16 :=
  (op.trans, BitVec.ofInt 16 op.windowid)

def insertOne (s : Tree × List Nat) (op : Insertion) : Except Fault (Tree × List Nat) := do
  let (tree, created) ← insertPatternSortedly s.1 op.stamp.1 op.stamp.2
  return (tree, s.2 ++ [created])

def insertRun (maxItems : Nat) (ops : List Insertion) : Except Fault (Tree × List Nat) :=
  ops.foldlM insertOne (newTree maxItems, [])

def Tree.findNode (tree : Tree) : Ptr → List Nat → Except Fault (Option Ptr)
  | parent, [] => .ok (some parent)
  | parent, curItem :: items => do
    let found ← tree.seek parent curItem
    match found.filter fun p => (tree.node p).itemNo.toInt = curItem with
    | some node => tree.findNode node items
    | none => return none

def Tree.findTime (tree : Tree) (time : Node → BitVec 16) (trans : Trans) : Except Fault Int := do
  match ← tree.findNode root trans.items with
  | some node => return (time (tree.node node)).toNat
  | none => return -1

def findStartTime (tree : Tree) (trans : Trans) : Except Fault Int :=
  tree.findTime Node.startId trans

def findEndTime (tree : Tree) (trans : Trans) : Except Fault Int := tree.findTime Node.endId trans

def patternSet (ops : List Insertion) : Finset Adr :=
  (ops.flatMap fun op => op.trans.items.inits).toFinset.erase []

def passing (b : Adr) (ops : List Insertion) : List Insertion :=
  ops.filter fun op => b <+: op.trans.items

structure InsertedRight (ops : List Insertion) (created : List Nat) (tree : Tree) (S : Shape)
    (addr : Adr → Ptr) : Prop where
  siblings : SortedTree tree S addr
  nodes : ∀ b, b ∈ S.nodes ↔ b ∈ patternSet ops
  start : ∀ b ∈ S.nodes, ∀ op ∈ (passing b ops).head?,
    ((tree.node (addr b)).startId.toNat : Int) = op.windowid
  last : ∀ b ∈ S.nodes, ∀ op ∈ (passing b ops).getLast?,
    ((tree.node (addr b)).endId.toNat : Int) = op.windowid
  support : ∀ b ∈ S.nodes, (tree.node (addr b)).support =
    ((passing b ops).map fun op => BitVec.ofNat 32 op.trans.support).sum
  single : ∀ i, tree.singleSupport i =
    ((S.header i).map fun b => (tree.node (addr b)).support).sum
  created : created = (List.range ops.length).map fun k =>
    (patternSet (ops.take (k + 1)) \ patternSet (ops.take k)).card
  found : ∀ b ∈ S.nodes, ∀ s, findStartTime tree ⟨s, b⟩ = .ok (tree.node (addr b)).startId.toNat ∧
    findEndTime tree ⟨s, b⟩ = .ok (tree.node (addr b)).endId.toNat
  notFound : ∀ b, b ≠ [] → b ∉ S.nodes → ∀ s, findStartTime tree ⟨s, b⟩ = .ok (-1) ∧
    findEndTime tree ⟨s, b⟩ = .ok (-1)

/-- The items are in the header table and fit in `itemNo`, the slide number fits in `start` and
`end`. -/
structure Insertion.Fits (maxItems : Nat) (op : Insertion) : Prop where
  table : ∀ c ∈ op.trans.items, c < maxItems
  small : ∀ c ∈ op.trans.items, c < itemLimit
  window : 0 ≤ op.windowid ∧ op.windowid < 2 ^ 16

variable {tree : Tree} {S : Shape} {addr : Adr → Ptr} {a b : Adr} {ops : List Insertion}
  {op : Insertion} {maxItems : Nat} {created : List Nat}

theorem SortedTree.findNode_eq (h : SortedTree tree S addr) (items : List Nat) (ha : S.Has a) :
    tree.findNode (addr a) items =
      .ok (if a ++ items ∈ [] :: S.nodes then some (addr (a ++ items)) else none) := by
  induction items generalizing a with
  | nil =>
    have hmem : a ∈ [] :: S.nodes := ha
    rw [List.append_nil, if_pos hmem]
    rfl
  | cons c items ih =>
    have happ : a ++ c :: items = a ++ [c] ++ items := by rw [List.append_assoc]; rfl
    rw [Tree.findNode, h.links.seek_eq ha c, happ]
    by_cases hc : c ∈ S.children a
    · have hfilter : ((FPTree.seek c (S.children a)).map fun j => addr (a ++ [j])).filter
          (fun p => decide ((tree.node p).itemNo.toInt = c)) = some (addr (a ++ [c])) := by
        rw [(FPTree.place_seek (h.sorted a) c).1.mpr hc]
        simp [h.links.item_eq hc]
      simp only [Bind.bind, Except.bind, hfilter]
      exact ih (h.links.ok.has_child hc)
    · have hfilter : ((FPTree.seek c (S.children a)).map fun j => addr (a ++ [j])).filter
          (fun p => decide ((tree.node p).itemNo.toInt = c)) = none := by
        refine Option.filter_eq_none_iff.mpr fun p hp => ?_
        rw [decide_eq_true_iff]
        exact h.links.seek_ne (h.sorted a) hc hp
      have hno : a ++ [c] ++ items ∉ [] :: S.nodes := by
        intro hhas
        have hprefix := h.links.ok.has_prefix hhas (List.prefix_append (a ++ [c]) items)
        refine hc ((h.links.ok.child a c).mpr ((List.mem_cons.mp hprefix).resolve_left ?_))
        exact List.append_ne_nil_of_right_ne_nil a (List.cons_ne_nil c [])
      simp only [Bind.bind, Except.bind, hfilter]
      rw [if_neg hno]
      rfl

theorem SortedTree.findTime_found (h : SortedTree tree S addr) (time : Node → BitVec 16)
    (hb : b ∈ S.nodes) (s : Nat) :
    tree.findTime time ⟨s, b⟩ = .ok (time (tree.node (addr b))).toNat := by
  have hfind := h.findNode_eq b S.has_root
  have hmem : b ∈ [] :: S.nodes := S.has_node hb
  rw [h.links.root, List.nil_append, if_pos hmem] at hfind
  rw [Tree.findTime, hfind]
  rfl

theorem SortedTree.findTime_notFound (h : SortedTree tree S addr) (time : Node → BitVec 16)
    (hne : b ≠ []) (hb : b ∉ S.nodes) (s : Nat) : tree.findTime time ⟨s, b⟩ = .ok (-1) := by
  have hfind := h.findNode_eq b S.has_root
  have hno : b ∉ [] :: S.nodes := fun hhas => (List.mem_cons.mp hhas).elim hne hb
  rw [h.links.root, List.nil_append, if_neg hno] at hfind
  rw [Tree.findTime, hfind]
  rfl

def stampsOf (ops : List Insertion) : Stamps :=
  Stamps.insertAll (fun _ => none) (ops.map Insertion.stamp)

structure RunInv (maxItems : Nat) (ops : List Insertion) (s : Tree × List Nat) (S : Shape)
    (addr : Adr → Ptr) : Prop where
  stamped : Stamped s.1 S addr (stampsOf ops)
  summed : Summed s.1 S addr
  maxItems : S.maxItems = maxItems
  created : s.2 = (List.range ops.length).map fun k =>
    (patternSet (ops.take (k + 1)) \ patternSet (ops.take k)).card

theorem mem_patternSet : b ∈ patternSet ops ↔ b ≠ [] ∧ ∃ op ∈ ops, b <+: op.trans.items := by
  rw [patternSet, Finset.mem_erase]
  simp [List.mem_inits]

theorem through_stamp (b : Adr) (ops : List Insertion) :
    Stamps.through b (ops.map Insertion.stamp) = (passing b ops).map Insertion.stamp :=
  List.filter_map

theorem stampsOf_apply (ops : List Insertion) (hb : b ≠ []) :
    stampsOf ops b = passes none ((passing b ops).map Insertion.stamp) := by
  rw [stampsOf, Stamps.insertAll_apply _ _ hb, through_stamp]

theorem Stamped.nodes_run (h : Stamped tree S addr (stampsOf ops)) (b : Adr) :
    b ∈ S.nodes ↔ b ∈ patternSet ops := by
  rw [mem_patternSet]
  by_cases hb : b = []
  · subst hb
    simp [h.links.ok.root]
  · rw [h.mem_iff, stampsOf, Stamps.insertAll_isSome hb]
    simp [hb, Insertion.stamp]

theorem card_nodes (hok : S.Ok) (hnodes : ∀ b, b ∈ S.nodes ↔ b ∈ patternSet ops) :
    S.nodes.length = (patternSet ops).card := by
  rw [← List.toFinset_card_of_nodup hok.nodup]
  refine congrArg Finset.card (Finset.ext fun b => ?_)
  rw [List.mem_toFinset, hnodes]

theorem RunInv.new (maxItems : Nat) : RunInv maxItems [] (newTree maxItems, [])
    (shape (FPTree.newTree maxItems)) fun _ => root :=
  ⟨newTree_stamped maxItems, fun _ => rfl, rfl, rfl⟩

theorem patternSet_mono (ops : List Insertion) (op : Insertion) :
    patternSet ops ⊆ patternSet (ops ++ [op]) := by
  intro b hb
  obtain ⟨hne, op', hop', hp⟩ := mem_patternSet.mp hb
  exact mem_patternSet.mpr ⟨hne, op', List.mem_append_left _ hop', hp⟩

theorem RunInv.insert {s : Tree × List Nat} (h : RunInv maxItems ops s S addr)
    (hsmall : ∀ c ∈ op.trans.items, c < itemLimit) :
    ∃ s' S' addr', insertOne s op = .ok s' ∧ RunInv maxItems (ops ++ [op]) s' S' addr' := by
  obtain ⟨tree', n, S', addr', hinsert, h', hkeeps, hlen⟩ := h.stamped.insert hsmall op.stamp.2
  have hrun : insertOne s op = .ok (tree', s.2 ++ [n]) := by
    exact congrArg (· >>= _) hinsert
  have hstamped : Stamped tree' S' addr' (stampsOf (ops ++ [op])) := by
    rw [stampsOf, List.map_append, Stamps.insertAll_append]
    exact h'
  have hnodes' : ∀ b, b ∈ S'.nodes ↔ b ∈ patternSet (ops ++ [op]) := hstamped.nodes_run
  refine ⟨_, S', addr', hrun, hstamped, hkeeps.summed h.summed, hkeeps.maxItems.trans h.maxItems,
    ?_⟩
  rw [List.length_append, List.length_singleton, List.range_succ, List.map_append,
    List.map_singleton, List.take_of_length_le (by simp), List.take_left, h.created]
  refine congrArg₂ (· ++ ·) (List.map_congr_left fun k hk => ?_) (congrArg ([·]) ?_)
  · have hlt := List.mem_range.mp hk
    rw [List.take_append_of_le_length hlt, List.take_append_of_le_length hlt.le]
  · rw [Finset.card_sdiff_of_subset (patternSet_mono ops op),
      ← card_nodes hstamped.links.ok hnodes',
      ← card_nodes h.stamped.links.ok h.stamped.nodes_run, hlen]
    exact (Nat.add_sub_cancel_left _ n).symm

theorem insertRun_inv (hops : ∀ op ∈ ops, ∀ c ∈ op.trans.items, c < itemLimit) :
    ∃ s S addr, insertRun maxItems ops = .ok s ∧ RunInv maxItems ops s S addr := by
  induction ops using List.reverseRecOn with
  | nil => exact ⟨_, _, _, rfl, .new maxItems⟩
  | append_singleton ops op ih =>
    obtain ⟨s, S, addr, hrun, h⟩ := ih fun op' hop' => hops op' (List.mem_append_left _ hop')
    have hsmall : ∀ c ∈ op.trans.items, c < itemLimit := hops op (by simp)
    obtain ⟨s', S', addr', hstep, h'⟩ := h.insert hsmall
    refine ⟨s', S', addr', ?_, h'⟩
    rw [insertRun, List.foldlM_append]
    rw [insertRun] at hrun
    rw [hrun]
    exact (List.foldlM_cons ..).trans (congrArg (· >>= _) hstep)

theorem window_eq (h : 0 ≤ op.windowid ∧ op.windowid < 2 ^ 16) :
    (op.stamp.2.toNat : Int) = op.windowid := by
  rw [Insertion.stamp, BitVec.toNat_ofInt]
  omega

theorem RunInv.at_node {s : Tree × List Nat} (h : RunInv maxItems ops s S addr) (hb : b ∈ S.nodes) :
    passes none ((passing b ops).map Insertion.stamp) = some (s.1.node (addr b)).stamp := by
  rw [← stampsOf_apply ops (h.stamped.links.ok.ne_nil hb), h.stamped.at_node hb]

theorem RunInv.right {s : Tree × List Nat} (h : RunInv maxItems ops s S addr)
    (hops : ∀ op ∈ ops, op.Fits maxItems) : InsertedRight ops s.2 s.1 S addr := by
  have hsorted : SortedTree s.1 S addr := by
    refine ⟨h.stamped.links, h.stamped.sorted, fun b hb i hi => ?_⟩
    obtain ⟨-, op, hop, hp⟩ := mem_patternSet.mp ((h.stamped.nodes_run b).mp hb)
    exact h.maxItems ▸ (hops op hop).table i (hp.subset hi)
  have hwindow : ∀ b, ∀ op ∈ passing b ops, (op.stamp.2.toNat : Int) = op.windowid :=
    fun b op hop => window_eq (hops op (List.mem_filter.mp hop).1).window
  refine ⟨hsorted, h.stamped.nodes_run, fun b hb op hop => ?_, fun b hb op hop => ?_,
    fun b hb => ?_, h.summed, h.created,
    fun b hb s => ⟨hsorted.findTime_found _ hb s, hsorted.findTime_found _ hb s⟩,
    fun b hne hb s => ⟨hsorted.findTime_notFound _ hne hb s, hsorted.findTime_notFound _ hne hb s⟩⟩
  · rw [← hwindow b op (List.mem_of_mem_head? hop)]
    obtain ⟨rest, hrest⟩ := List.head?_eq_some_iff.mp hop
    have hnode := h.at_node hb
    rw [hrest] at hnode
    have hfirst : ∃ d, passes (some (.made op.stamp.1.support op.stamp.2))
        (rest.map Insertion.stamp) = some d ∧ d.startId = op.stamp.2 := passes_startId
    obtain ⟨d, hd, hstart⟩ := hfirst
    obtain rfl : d = (s.1.node (addr b)).stamp := Option.some.inj (hd.symm.trans hnode)
    exact congrArg (fun w => (w.toNat : Int)) hstart
  · rw [← hwindow b op (List.mem_of_getLast? hop)]
    have hlast : op.stamp ∈ ((passing b ops).map Insertion.stamp).getLast? := by
      rw [List.getLast?_map, hop]
      rfl
    obtain ⟨d, hd, hend⟩ := passes_endId hlast
    obtain rfl : d = (s.1.node (addr b)).stamp := Option.some.inj (hd.symm.trans (h.at_node hb))
    exact congrArg (fun w => (w.toNat : Int)) hend
  · have hsum : (passes none ((passing b ops).map Insertion.stamp)).elim 0 Stamp.support = _ :=
      passes_support
    rw [h.at_node hb, List.map_map] at hsum
    exact hsum.trans (zero_add _)

/-- Every run whose insertions fit leaves the tree right. -/
theorem insertRun_right (hops : ∀ op ∈ ops, op.Fits maxItems) : ∃ tree created S addr,
    insertRun maxItems ops = .ok (tree, created) ∧ InsertedRight ops created tree S addr := by
  obtain ⟨⟨tree, created⟩, S, addr, hrun, h⟩ := insertRun_inv fun op hop => (hops op hop).small
  exact ⟨tree, created, S, addr, hrun, h.right hops⟩

/-- {0, 1} in slide 3 and {0, 2} in slide 5. -/
theorem insertRun_right_two : ∃ tree created S addr,
    insertRun 3 [⟨⟨1, [0, 1]⟩, 3⟩, ⟨⟨1, [0, 2]⟩, 5⟩] = .ok (tree, created) ∧
      InsertedRight [⟨⟨1, [0, 1]⟩, 3⟩, ⟨⟨1, [0, 2]⟩, 5⟩] created tree S addr :=
  insertRun_right (List.forall_mem_cons.mpr ⟨⟨by decide, by decide, by decide⟩,
    List.forall_mem_singleton.mpr ⟨by decide, by decide, by decide⟩⟩)

/-- A pattern that comes in slide 65536 says that it came in slide 0. -/
theorem slide65536_not_insertedRight : ∃ tree created,
    insertRun 1 [⟨⟨1, [0]⟩, 65536⟩] = .ok (tree, created) ∧
      ¬ ∃ S addr, InsertedRight [⟨⟨1, [0]⟩, 65536⟩] created tree S addr := by
  have hinv : ∃ s S addr, insertRun 1 [⟨⟨1, [0]⟩, 65536⟩] = .ok s ∧
      RunInv 1 [⟨⟨1, [0]⟩, 65536⟩] s S addr := insertRun_inv (by decide)
  obtain ⟨⟨tree, created⟩, -, -, hrun, -⟩ := hinv
  refine ⟨tree, created, hrun, fun ⟨S, addr, h⟩ => ?_⟩
  have hb : [0] ∈ S.nodes := (h.nodes [0]).mpr (by decide)
  have hstart := h.start [0] hb ⟨⟨1, [0]⟩, 65536⟩ rfl
  have hlt := (tree.node (addr [0])).startId.isLt
  change ((tree.node (addr [0])).startId.toNat : Int) = 65536 at hstart
  omega

end StreamMill.Swim

import Mathlib.Data.List.Induction
import StreamMill.Swim.Tree

/-!
# StreamMill.Swim.Links

`Linked tree S addr` says that the nodes of `tree` lie at the addresses that `addr` gives to the
nodes of the shape `S`, and that all their links and the counters of nodes are right. A node that
is added in memory is added to the shape (`Linked.addNode`).
-/

namespace StreamMill.Swim

open Lib
open FPTree (Trans Adr)

/-- Which nodes there are. A node is known by the items on the way to it, as in `FPTree.Tree`. -/
structure Shape where
  maxItems : Nat
  nodes : List Adr
  children : Adr → List Nat

def shape (T : FPTree.Tree) : Shape := ⟨T.maxItems, T.nodes, T.children⟩

namespace Shape

variable (S : Shape)

def header (i : Nat) : List Adr := S.nodes.filter fun a => a.getLast? = some i

def add (parent : Adr) (i : Nat) (siblings : List Nat) : Shape where
  maxItems := S.maxItems
  nodes := (parent ++ [i]) :: S.nodes
  children := Function.update (Function.update S.children (parent ++ [i]) []) parent siblings

def Has (a : Adr) : Prop := a ∈ [] :: S.nodes

structure Ok : Prop where
  nodup : S.nodes.Nodup
  root : [] ∉ S.nodes
  closed : ∀ a i, a ++ [i] ∈ S.nodes → S.Has a
  child : ∀ a i, i ∈ S.children a ↔ a ++ [i] ∈ S.nodes
  childNodup : ∀ a, (S.children a).Nodup

end Shape

variable {S : Shape} {a b : Adr} {i : Nat}

theorem Shape.has_root (S : Shape) : S.Has [] := List.mem_cons_self

theorem Shape.has_node (S : Shape) (h : a ∈ S.nodes) : S.Has a := List.mem_cons_of_mem _ h

theorem Shape.Ok.has_child (h : S.Ok) (hi : i ∈ S.children a) : S.Has (a ++ [i]) :=
  S.has_node ((h.child a i).mp hi)

theorem Shape.Ok.has_prefix (h : S.Ok) (hb : S.Has b) (hp : a <+: b) : S.Has a := by
  induction b using List.reverseRecOn with
  | nil =>
    rw [List.prefix_nil.mp hp]
    exact S.has_root
  | append_singleton b i ih =>
    rcases FPTree.prefix_concat_iff.mp hp with hp | rfl
    · refine ih (h.closed b i ?_) hp
      rcases List.mem_cons.mp hb with hnil | hm
      · simp at hnil
      · exact hm
    · exact hb

theorem Shape.mem_header : a ∈ S.header i ↔ a ∈ S.nodes ∧ ∃ b, a = b ++ [i] := by
  rw [header, List.mem_filter, decide_eq_true_iff, List.getLast?_eq_some_iff]

def Shape.extensions (S : Shape) (b : Adr) : List Adr := S.nodes.filter fun a => b <+: a ∧ a ≠ b

variable {siblings : List Nat} {l : List Adr} {b : Adr}

theorem Shape.add_ok (h : S.Ok) (ha : S.Has a) (hi : i ∉ S.children a)
    (hperm : siblings.Perm (i :: S.children a)) : (S.add a i siblings).Ok := by
  have hnew : a ++ [i] ∉ S.nodes := fun hm => hi ((h.child a i).mpr hm)
  have hhas : ∀ {b}, S.Has b → (S.add a i siblings).Has b := by
    intro b hb
    rcases List.mem_cons.mp hb with rfl | hb
    · exact has_root _
    · exact has_node _ (List.mem_cons_of_mem _ hb)
  refine ⟨List.nodup_cons.mpr ⟨hnew, h.nodup⟩, ?_, ?_, ?_, ?_⟩
  · simpa [Shape.add] using h.root
  · intro b j hm
    rcases List.mem_cons.mp hm with heq | hm
    · obtain rfl : b = a := List.append_inj_left' heq rfl
      exact hhas ha
    · exact hhas (h.closed b j hm)
  · intro b j
    simp only [Shape.add, List.mem_cons]
    by_cases hb : b = a
    · subst hb
      rw [Function.update_self, hperm.mem_iff, List.mem_cons, h.child]
      simp
    · have hne : b ++ [j] ≠ a ++ [i] := fun he => hb (List.append_inj_left' he rfl)
      rw [Function.update_of_ne hb]
      by_cases hb' : b = a ++ [i]
      · subst hb'
        have hno : a ++ [i] ++ [j] ∉ S.nodes := by
          intro hm
          rcases List.mem_cons.mp (h.closed _ _ hm) with hnil | hm
          · simp at hnil
          · exact hnew hm
        simpa using hno
      · rw [Function.update_of_ne hb', h.child]
        simp [hne]
  · intro b
    simp only [Shape.add]
    by_cases hb : b = a
    · subst hb
      rw [Function.update_self]
      exact hperm.nodup_iff.mpr (List.nodup_cons.mpr ⟨hi, h.childNodup _⟩)
    · rw [Function.update_of_ne hb]
      by_cases hb' : b = a ++ [i]
      · subst hb'
        rw [Function.update_self]
        exact List.nodup_nil
      · rw [Function.update_of_ne hb']
        exact h.childNodup b

/-- The largest item a `short` holds is one less. -/
def itemLimit : Nat := 2 ^ 15

theorem toInt_item (hi : i < itemLimit) : (BitVec.ofNat 16 i).toInt = i := by
  rw [itemLimit] at hi
  rw [BitVec.toInt_ofNat', Int.bmod_eq_of_le (by omega) (by omega)]

structure Linked (tree : Tree) (S : Shape) (addr : Adr → Ptr) : Prop where
  ok : S.Ok
  maxItems : tree.maxItems = S.maxItems
  root : addr [] = root
  inj : ∀ a b, S.Has a → S.Has b → addr a = addr b → a = b
  fresh : ∀ a, S.Has a → addr a < tree.fresh
  small : ∀ a i, a ++ [i] ∈ S.nodes → i < itemLimit
  rootItem : (tree.node Swim.root).itemNo = -1
  rootParent : (tree.node Swim.root).parent = none
  item : ∀ a i, a ++ [i] ∈ S.nodes → (tree.node (addr (a ++ [i]))).itemNo = BitVec.ofNat 16 i
  parent : ∀ a i, a ++ [i] ∈ S.nodes → (tree.node (addr (a ++ [i]))).parent = some (addr a)
  children : ∀ a, S.Has a → Path (fun p => (tree.node p).sibling) (tree.node (addr a)).leftChild
    ((S.children a).map fun i => addr (a ++ [i]))
  header : ∀ i, tree.header i = first some ((S.header i).map addr) none
  chain : ∀ i, Seg (fun p => (tree.node p).nextHeader) (fun p => (tree.node p).prevHeader) some none
    ((S.header i).map addr) none
  redundancy : ∀ i, tree.redundancy i = (S.header i).length
  total : tree.totalNodes = S.nodes.length

variable {tree tree' : Tree} {addr : Adr → Ptr}

def Node.links (n : Node) : Node :=
  { Node.zero with
    itemNo := n.itemNo
    parent := n.parent
    sibling := n.sibling
    leftChild := n.leftChild
    nextHeader := n.nextHeader
    prevHeader := n.prevHeader }

def Tree.links (tree : Tree) : Tree :=
  { tree with node := fun p => (tree.node p).links, singleSupport := fun _ => 0 }

theorem linked_links : Linked tree.links S addr ↔ Linked tree S addr :=
  ⟨fun h => ⟨h.ok, h.maxItems, h.root, h.inj, h.fresh, h.small, h.rootItem, h.rootParent, h.item,
      h.parent, h.children, h.header, h.chain, h.redundancy, h.total⟩,
    fun h => ⟨h.ok, h.maxItems, h.root, h.inj, h.fresh, h.small, h.rootItem, h.rootParent, h.item,
      h.parent, h.children, h.header, h.chain, h.redundancy, h.total⟩⟩

theorem Linked.congr (h : Linked tree S addr) (heq : tree'.links = tree.links) :
    Linked tree' S addr := by
  rw [← linked_links, heq, linked_links]
  exact h

theorem setNode_links (tree : Tree) (p : Ptr) {f : Node → Node} (hf : ∀ n, (f n).links = n.links) :
    (tree.setNode p f).links = tree.links := by
  simp only [Tree.links, Tree.setNode, Tree.mk.injEq, true_and, and_true]
  funext q
  by_cases hq : q = p
  · subst hq
    rw [Function.update_self, hf]
  · rw [Function.update_of_ne hq]

/-- The links alone, whatever the items of the nodes are. `chains` are the chains of the header
table. -/
structure Wired (tree : Tree) (S : Shape) (addr : Adr → Ptr) (chains : Nat → List Adr) : Prop where
  ok : S.Ok
  root : addr [] = root
  inj : ∀ a b, S.Has a → S.Has b → addr a = addr b → a = b
  fresh : ∀ a, S.Has a → addr a < tree.fresh
  parent : ∀ a i, a ++ [i] ∈ S.nodes → (tree.node (addr (a ++ [i]))).parent = some (addr a)
  children : ∀ a, S.Has a → Path (fun p => (tree.node p).sibling) (tree.node (addr a)).leftChild
    ((S.children a).map fun i => addr (a ++ [i]))
  listed : ∀ i, ∀ a ∈ chains i, a ∈ S.nodes
  once : ∀ i, (chains i).Nodup
  disjoint : ∀ i j, ∀ a ∈ chains i, a ∈ chains j → i = j
  header : ∀ i, tree.header i = first some ((chains i).map addr) none
  chain : ∀ i, Seg (fun p => (tree.node p).nextHeader) (fun p => (tree.node p).prevHeader) some none
    ((chains i).map addr) none
  redundancy : ∀ i, tree.redundancy i = (chains i).length
  total : tree.totalNodes = S.nodes.length

variable {chains : Nat → List Adr}

theorem Linked.wired (h : Linked tree S addr) : Wired tree S addr S.header := by
  refine ⟨h.ok, h.root, h.inj, h.fresh, h.parent, h.children, fun i a ha =>
    (Shape.mem_header.mp ha).1, fun i => h.ok.nodup.filter _, fun i j a hi hj => ?_, h.header,
    h.chain, h.redundancy, h.total⟩
  obtain ⟨-, b, rfl⟩ := Shape.mem_header.mp hi
  obtain ⟨-, c, heq⟩ := Shape.mem_header.mp hj
  exact List.singleton_inj.mp (List.append_inj_right' heq rfl)

theorem Wired.linked (h : Wired tree S addr S.header) (maxItems : tree.maxItems = S.maxItems)
    (small : ∀ a i, a ++ [i] ∈ S.nodes → i < itemLimit)
    (rootItem : (tree.node Swim.root).itemNo = -1)
    (rootParent : (tree.node Swim.root).parent = none)
    (item : ∀ a i, a ++ [i] ∈ S.nodes → (tree.node (addr (a ++ [i]))).itemNo = BitVec.ofNat 16 i) :
    Linked tree S addr :=
  ⟨h.ok, maxItems, h.root, h.inj, h.fresh, small, rootItem, rootParent, item, h.parent, h.children,
    h.header, h.chain, h.redundancy, h.total⟩

section

variable (h : Wired tree S addr chains)
include h

theorem Wired.congr (heq : tree'.links = tree.links) :
    Wired tree' S addr chains := by
  have hlinks : ∀ {t : Tree}, Wired t S addr chains → Wired t.links S addr chains := fun h =>
    ⟨h.ok, h.root, h.inj, h.fresh, h.parent, h.children, h.listed, h.once, h.disjoint, h.header,
      h.chain, h.redundancy, h.total⟩
  have hback : Wired tree'.links S addr chains := heq ▸ hlinks h
  exact ⟨hback.ok, hback.root, hback.inj, hback.fresh, hback.parent, hback.children, hback.listed,
    hback.once, hback.disjoint, hback.header, hback.chain, hback.redundancy, hback.total⟩

theorem Wired.has (ha : a ∈ chains i) : S.Has a :=
  S.has_node (h.listed i a ha)

theorem Wired.map_nodup (hl : ∀ a ∈ l, S.Has a) (hnd : l.Nodup) :
    (l.map addr).Nodup :=
  hnd.map_on fun a ha b hb => h.inj a b (hl a ha) (hl b hb)

theorem Wired.map_length (hl : ∀ a ∈ l, S.Has a) (hnd : l.Nodup) :
    (l.map addr).length ≤ tree.fresh := by
  refine length_le_of_lt (h.map_nodup hl hnd) fun p hp => ?_
  obtain ⟨a, ha, rfl⟩ := List.mem_map.mp hp
  exact h.fresh a (hl a ha)

theorem Wired.chain_eq (i : Nat) :
    tree.chain i = .ok ((chains i).map addr) := by
  refine visits_path _ ?_ (h.map_length (fun a => h.has) (h.once i))
  rw [h.header]
  exact (h.chain i).forward

theorem Wired.chains_disjoint {j : Nat} (hij : i ≠ j) {p : Ptr} (hp : p ∈ (chains i).map addr) :
    p ∉ (chains j).map addr := by
  intro hq
  obtain ⟨a, ha, rfl⟩ := List.mem_map.mp hp
  obtain ⟨b, hb, heq⟩ := List.mem_map.mp hq
  obtain rfl := h.inj _ _ (h.has hb) (h.has ha) heq
  exact hij (h.disjoint i j b ha hb)

theorem Wired.children_nodup {l : List Nat} (hl : l.Sublist (S.children a)) :
    (l.map fun i => addr (a ++ [i])).Nodup ∧
      (l.map fun i => addr (a ++ [i])).length ≤ tree.fresh := by
  have hmap : (l.map fun i => addr (a ++ [i])) = (l.map fun i => a ++ [i]).map addr :=
    (List.map_map ..).symm
  have hnodes : ∀ b ∈ l.map fun i => a ++ [i], S.Has b := by
    intro b hb
    obtain ⟨i, hi, rfl⟩ := List.mem_map.mp hb
    exact h.ok.has_child (hl.subset hi)
  have hnd : (l.map fun i => a ++ [i]).Nodup :=
    ((h.ok.childNodup a).sublist hl).map fun i j he => by simpa using he
  rw [hmap]
  exact ⟨h.map_nodup hnodes hnd, h.map_length hnodes hnd⟩

end

theorem Linked.map_nodup (h : Linked tree S addr) (hl : ∀ a ∈ l, S.Has a) (hnd : l.Nodup) :
    (l.map addr).Nodup := h.wired.map_nodup hl hnd

theorem Linked.has_header (h : a ∈ S.header i) : S.Has a := S.has_node (Shape.mem_header.mp h).1

theorem Linked.chain_eq (h : Linked tree S addr) (i : Nat) :
    tree.chain i = .ok ((S.header i).map addr) := h.wired.chain_eq i

theorem Linked.item_small (h : Linked tree S addr) (ha : a ∈ S.nodes) (hi : i ∈ a) :
    i < itemLimit := by
  obtain ⟨b, c, rfl⟩ := List.append_of_mem hi
  have hp : b ++ [i] <+: b ++ i :: c := ⟨c, by rw [List.append_assoc]; rfl⟩
  refine h.small b i ((List.mem_cons.mp (h.ok.has_prefix (S.has_node ha) hp)).resolve_left ?_)
  exact List.append_ne_nil_of_right_ne_nil _ (List.cons_ne_nil i [])

/-! ## The header table -/

/-- `i` from `MaxItems - 1` down to 0 -/
def Tree.items (tree : Tree) : List Nat := (List.range tree.maxItems).reverse

theorem Tree.mem_items (tree : Tree) : i ∈ tree.items ↔ i < tree.maxItems := by
  rw [items, List.mem_reverse, List.mem_range]

theorem Linked.exists_header (h : Linked tree S addr)
    (hitems : ∀ b ∈ S.nodes, ∀ i ∈ b, i < S.maxItems) (ha : a ∈ S.nodes) :
    ∃ i ∈ tree.items, a ∈ S.header i := by
  rcases List.eq_nil_or_concat a with rfl | ⟨b, i, rfl⟩
  · exact absurd ha h.ok.root
  · rw [List.concat_eq_append] at ha ⊢
    refine ⟨i, (tree.mem_items).mpr ?_, Shape.mem_header.mpr ⟨ha, b, rfl⟩⟩
    rw [h.maxItems]
    exact hitems _ ha i (by simp)

theorem Wired.chains_perm (h : Wired tree S addr chains)
    (hall : ∀ a ∈ S.nodes, ∃ i ∈ tree.items, a ∈ chains i) :
    (tree.items.flatMap chains).Perm S.nodes := by
  have hnd : tree.items.Nodup := List.nodup_reverse.mpr List.nodup_range
  refine (List.perm_ext_iff_of_nodup (List.nodup_flatMap.mpr ⟨fun i _ => h.once i, ?_⟩)
    h.ok.nodup).mpr fun a => ?_
  · refine hnd.imp fun {i j} hij => List.disjoint_left.mpr fun a hai haj => ?_
    exact hij (h.disjoint i j a hai haj)
  · rw [List.mem_flatMap]
    constructor
    · rintro ⟨i, -, ha⟩
      exact h.listed i a ha
    · exact hall a

section

variable (h : Linked tree S addr)
include h

theorem Linked.header_perm (hitems : ∀ b ∈ S.nodes, ∀ i ∈ b, i < S.maxItems) :
    (tree.items.flatMap S.header).Perm S.nodes :=
  h.wired.chains_perm fun _ => h.exists_header hitems

theorem Linked.children_length (a : Adr) :
    ((S.children a).map fun i => addr (a ++ [i])).length ≤ tree.fresh :=
  (h.wired.children_nodup (List.Sublist.refl _)).2

theorem Linked.siblings_eq (ha : S.Has a) :
    tree.siblings (addr a) = .ok ((S.children a).map fun i => addr (a ++ [i])) :=
  visits_path _ (h.children a ha) (h.children_length a)

theorem Linked.item_eq (hi : i ∈ S.children a) :
    (tree.node (addr (a ++ [i]))).itemNo.toInt = i := by
  have hm := (h.ok.child a i).mp hi
  rw [h.item a i hm, toInt_item (h.small a i hm)]

theorem Linked.itemNo_eq (ha : S.Has a) :
    (tree.node (addr a)).itemNo.toInt = FPTree.itemNo a := by
  rcases List.eq_nil_or_concat a with rfl | ⟨b, i, rfl⟩
  · rw [h.root, h.rootItem]
    rfl
  · rw [List.concat_eq_append] at ha ⊢
    have hm : b ++ [i] ∈ S.nodes := by
      rcases List.mem_cons.mp ha with hnil | hm
      · simp at hnil
      · exact hm
    rw [h.item_eq ((h.ok.child b i).mpr hm), FPTree.itemNo, List.getLast?_concat]

theorem Linked.depth (ha : S.Has a) : a.length < tree.fresh := by
  have htake : ∀ n, S.Has (a.take n) := fun n => h.ok.has_prefix ha (List.take_prefix n a)
  have hlen : ((List.range (a.length + 1)).map fun n => addr (a.take n)).length = a.length + 1 := by
    rw [List.length_map, List.length_range]
  rw [← Nat.succ_le_iff, Nat.succ_eq_add_one, ← hlen]
  refine length_le_of_lt ?_ ?_
  · refine List.nodup_range.map_on fun n hn m hm heq => ?_
    have hlen := congrArg List.length (h.inj _ _ (htake n) (htake m) heq)
    rw [List.length_take, List.length_take] at hlen
    have hn := List.mem_range.mp hn
    have hm := List.mem_range.mp hm
    omega
  · intro p hp
    obtain ⟨n, -, rfl⟩ := List.mem_map.mp hp
    exact h.fresh _ (htake n)

theorem Linked.findChild_eq (ha : S.Has a) (c : Nat) :
    tree.findChild (addr a) c =
      .ok (if c ∈ S.children a then some (addr (a ++ [c])) else none) := by
  rw [Tree.findChild, walk_path _ _ (h.children a ha) (h.children_length a),
    ← List.find?_not_eq_head?_dropWhile, find_map fun j hj => ?_]
  simp [h.item_eq hj, Int.ofNat_inj]

end

/-! ## A new node -/

section SetNode

variable (tree : Tree) (p q : Ptr) (f : Node → Node)

theorem setNode_node :
    (tree.setNode p f).node q = if q = p then f (tree.node q) else tree.node q := by
  simp only [Tree.setNode]
  rw [Function.update_apply]
  split
  · next h => rw [h]
  · rfl

@[simp] theorem setNode_header : (tree.setNode p f).header = tree.header := rfl
@[simp] theorem setNode_fresh : (tree.setNode p f).fresh = tree.fresh := rfl
@[simp] theorem setNode_maxItems : (tree.setNode p f).maxItems = tree.maxItems := rfl
@[simp] theorem setNode_totalNodes : (tree.setNode p f).totalNodes = tree.totalNodes := rfl
@[simp] theorem setNode_redundancy : (tree.setNode p f).redundancy = tree.redundancy := rfl
@[simp] theorem setNode_single : (tree.setNode p f).singleSupport = tree.singleSupport := rfl

end SetNode

section AddNode

variable (tree : Tree) (parent : Ptr) (left : Option Ptr) (i s : Nat) (w : BitVec 16)
  (r : Option Ptr) (p : Ptr)

def Node.new (parent : Ptr) (i s : Nat) (w : BitVec 16) (r : Option Ptr) : Node :=
  { Node.zero with
    itemNo := BitVec.ofNat 16 i
    support := BitVec.ofNat 32 s
    parent := some parent
    startId := w
    endId := w
    returnFreqAdr := r }

theorem addNode_field {β : Type} (get : Node → β)
    (hlinks : ∀ n c d e f,
      get { n with sibling := c, leftChild := d, nextHeader := e, prevHeader := f } = get n) :
    get ((tree.addNode parent left i s w r).node p) =
      if p = tree.fresh then get (Node.new parent i s w r) else get (tree.node p) := by
  have hsibling : ∀ n c, get { n with sibling := c } = get n := fun n c => hlinks n c _ _ _
  have hleft : ∀ n d, get { n with leftChild := d } = get n := fun n d => hlinks n _ d _ _
  have hnext : ∀ n e f, get { n with nextHeader := e, prevHeader := f } = get n :=
    fun n e f => hlinks n _ _ e f
  cases left <;> cases hh : tree.header i <;>
    simp [Tree.addNode, Tree.linkSibling, Tree.linkHeader, setNode_node, Tree.addSingle,
      Function.update_apply, apply_ite get, hh, hsibling, hleft, hnext, Node.new]

theorem addNode_nextHeader : ((tree.addNode parent left i s w r).node p).nextHeader =
    if p = tree.fresh then tree.header i else (tree.node p).nextHeader := by
  cases left <;> cases hh : tree.header i <;>
    simp [Tree.addNode, Tree.linkSibling, Tree.linkHeader, setNode_node, Tree.addSingle,
      Function.update_apply, apply_ite Node.nextHeader, hh] <;>
    split <;> rfl

theorem addNode_prevHeader (hfresh : some tree.fresh ≠ tree.header i) :
    ((tree.addNode parent left i s w r).node p).prevHeader =
      if p = tree.fresh then none
      else if tree.header i = some p then some tree.fresh else (tree.node p).prevHeader := by
  by_cases hp : p = tree.fresh
  · cases left <;> cases hh : tree.header i <;>
      simp_all [Tree.addNode, Tree.linkSibling, Tree.linkHeader, setNode_node, Tree.addSingle,
        Function.update_apply]
  · cases left <;> cases hh : tree.header i <;>
      simp [Tree.addNode, Tree.linkSibling, Tree.linkHeader, setNode_node, Tree.addSingle,
        Function.update_apply, apply_ite Node.prevHeader, hh, hp, eq_comm]

theorem addNode_sibling_front (hparent : parent ≠ tree.fresh) :
    ((tree.addNode parent none i s w r).node p).sibling =
      if p = tree.fresh then (tree.node parent).leftChild else (tree.node p).sibling := by
  cases hh : tree.header i <;>
    simp [Tree.addNode, Tree.linkSibling, Tree.linkHeader, setNode_node, Tree.addSingle,
      Function.update_apply, apply_ite Node.sibling, hh, hparent] <;>
    split <;> rfl

theorem addNode_sibling_after {l : Ptr} (hl : l ≠ tree.fresh) :
    ((tree.addNode parent (some l) i s w r).node p).sibling =
      if p = tree.fresh then (tree.node l).sibling
      else if p = l then some tree.fresh else (tree.node p).sibling := by
  by_cases hp : p = tree.fresh
  · subst hp
    cases hh : tree.header i <;>
      simp [Tree.addNode, Tree.linkSibling, Tree.linkHeader, setNode_node, Tree.addSingle,
        apply_ite Node.sibling, hh, hl, Ne.symm hl]
  · cases hh : tree.header i <;>
      simp [Tree.addNode, Tree.linkSibling, Tree.linkHeader, setNode_node, Tree.addSingle,
        Function.update_apply, apply_ite Node.sibling, hh, hp]

theorem addNode_leftChild (hparent : parent ≠ tree.fresh) :
    ((tree.addNode parent left i s w r).node p).leftChild =
      if p = tree.fresh then none
      else if left = none ∧ p = parent then some tree.fresh else (tree.node p).leftChild := by
  by_cases hp : p = tree.fresh
  · subst hp
    cases left <;> cases hh : tree.header i <;>
      simp [Tree.addNode, Tree.linkSibling, Tree.linkHeader, setNode_node, Tree.addSingle,
        Function.update_apply, apply_ite Node.leftChild, hh, Ne.symm hparent, Node.zero]
  · cases left <;> cases hh : tree.header i <;>
      simp [Tree.addNode, Tree.linkSibling, Tree.linkHeader, setNode_node, Tree.addSingle,
        Function.update_apply, apply_ite Node.leftChild, hh, hp]

@[simp] theorem addNode_fresh :
    (tree.addNode parent left i s w r).fresh = tree.fresh + 1 := by
  cases left <;> cases hh : tree.header i <;>
    simp [Tree.addNode, Tree.linkSibling, Tree.linkHeader, Tree.addSingle, hh]

@[simp] theorem addNode_maxItems :
    (tree.addNode parent left i s w r).maxItems = tree.maxItems := by
  cases left <;> cases hh : tree.header i <;>
    simp [Tree.addNode, Tree.linkSibling, Tree.linkHeader, Tree.addSingle, hh]

@[simp] theorem addNode_totalNodes :
    (tree.addNode parent left i s w r).totalNodes = tree.totalNodes + 1 := by
  cases left <;> cases hh : tree.header i <;>
    simp [Tree.addNode, Tree.linkSibling, Tree.linkHeader, Tree.addSingle, hh]

@[simp] theorem addNode_header : (tree.addNode parent left i s w r).header =
    Function.update tree.header i (some tree.fresh) := by
  cases left <;> cases hh : tree.header i <;>
    simp [Tree.addNode, Tree.linkSibling, Tree.linkHeader, Tree.addSingle, hh]

@[simp] theorem addNode_redundancy : (tree.addNode parent left i s w r).redundancy =
    Function.update tree.redundancy i (tree.redundancy i + 1) := by
  cases left <;> cases hh : tree.header i <;>
    simp [Tree.addNode, Tree.linkSibling, Tree.linkHeader, Tree.addSingle, hh]

@[simp] theorem addNode_single : (tree.addNode parent left i s w r).singleSupport =
    Function.update tree.singleSupport i (tree.singleSupport i + BitVec.ofNat 32 s) := by
  cases left <;> cases hh : tree.header i <;>
    simp [Tree.addNode, Tree.linkSibling, Tree.linkHeader, Tree.addSingle, hh]

end AddNode

theorem insertAfter_eq {left : Nat} (i : Nat) {xs ys : List Nat} (h : left ∉ xs) :
    FPTree.insertAfter left i (xs ++ left :: ys) = xs ++ left :: i :: ys := by
  induction xs with
  | nil => simp [FPTree.insertAfter]
  | cons x xs ih =>
    obtain ⟨hx, hxs⟩ : left ≠ x ∧ left ∉ xs := by simpa using h
    rw [List.cons_append, FPTree.insertAfter, if_neg (Ne.symm hx), ih hxs]
    rfl

theorem place_perm {left : Option Nat} (i : Nat) {l : List Nat} (hleft : ∀ j ∈ left, j ∈ l)
    (hnd : l.Nodup) : (FPTree.place left i l).Perm (i :: l) := by
  cases left with
  | none => exact .refl _
  | some j =>
    obtain ⟨xs, ys, rfl⟩ := List.append_of_mem (hleft j rfl)
    have hj : j ∉ xs := fun hm => (List.nodup_append.mp hnd).2.2 j hm j List.mem_cons_self rfl
    rw [FPTree.place, insertAfter_eq i hj]
    exact (List.perm_middle.trans (.cons j List.perm_middle)).trans
      ((List.Perm.swap i j _).trans (.cons i List.perm_middle.symm))

theorem Shape.Ok.ne_new (h : S.Ok) (hi : i ∉ S.children a) (hb : S.Has b) : b ≠ a ++ [i] := by
  rintro rfl
  rcases List.mem_cons.mp hb with hnil | hm
  · simp at hnil
  · exact hi ((h.child a i).mpr hm)

theorem Shape.Ok.addr_update (h : S.Ok) (hi : i ∉ S.children a) (hb : S.Has b) (p : Ptr) :
    Function.update addr (a ++ [i]) p b = addr b :=
  Function.update_of_ne (h.ne_new hi hb) _ _

theorem Linked.addr_update (h : Linked tree S addr) (hi : i ∉ S.children a) (hb : S.Has b) (p : Ptr) :
    Function.update addr (a ++ [i]) p b = addr b :=
  h.ok.addr_update hi hb p

theorem Wired.ne_fresh (h : Wired tree S addr chains) (hb : S.Has b) :
    addr b ≠ tree.fresh := Nat.ne_of_lt (h.fresh b hb)

theorem Linked.ne_fresh (h : Linked tree S addr) (hb : S.Has b) : addr b ≠ tree.fresh :=
  Nat.ne_of_lt (h.fresh b hb)

theorem Wired.addNode_get (h : Wired tree S addr chains) {x : Nat} (hx : x ∉ S.children a)
    (parent : Ptr) (left : Option Ptr) (c s : Nat) (w : BitVec 16) {β : Type} (get : Node → β)
    (hlinks : ∀ n c d e f,
      get { n with sibling := c, leftChild := d, nextHeader := e, prevHeader := f } = get n) :
    let tree' := tree.addNode parent left c s w none
    let addr' := Function.update addr (a ++ [x]) tree.fresh
    get (tree'.node (addr' (a ++ [x]))) = get (Node.new parent c s w none) ∧
      ∀ b, S.Has b → get (tree'.node (addr' b)) = get (tree.node (addr b)) := by
  intro tree' addr'
  have hget := fun p => addNode_field tree parent left c s w none p get hlinks
  constructor
  · show get (tree'.node (Function.update addr (a ++ [x]) tree.fresh (a ++ [x]))) = _
    rw [Function.update_self, hget, if_pos rfl]
  · intro b hb
    show get (tree'.node (Function.update addr (a ++ [x]) tree.fresh b)) = _
    rw [h.ok.addr_update hx hb, hget, if_neg (h.ne_fresh hb)]

theorem Shape.has_add :
    (S.add a i siblings).Has b ↔ b = a ++ [i] ∨ S.Has b := by
  simp only [Has, add, List.mem_cons]
  exact or_left_comm

theorem Shape.children_add (b : Adr) :
    (S.add a i siblings).children b =
      if b = a then siblings else if b = a ++ [i] then [] else S.children b := by
  simp [add, Function.update_apply]

theorem Shape.header_add (j : Nat) :
    (S.add a i siblings).header j = if j = i then (a ++ [i]) :: S.header i else S.header j := by
  rw [add]
  by_cases hj : j = i
  · subst hj
    simp [header]
  · simp [header, hj, Ne.symm hj]

section Added

variable {s x : Nat} {w : BitVec 16} {r : Option Ptr} {left : Option Nat}

section

variable (h : Wired tree S addr chains) (ha : S.Has a) (hx : x ∉ S.children a)
  (hleft : ∀ j ∈ left, j ∈ S.children a)
include h ha hx hleft

theorem Wired.children_other (hb : S.Has b) (hne : b ≠ a) :
    let tree' := tree.addNode (addr a) (left.map fun j => addr (a ++ [j])) i s w r
    Path (fun p => (tree'.node p).sibling) (tree'.node (addr b)).leftChild
      ((S.children b).map fun j => Function.update addr (a ++ [x]) tree.fresh (b ++ [j])) := by
  intro tree'
  have hmap : ((S.children b).map fun j => Function.update addr (a ++ [x]) tree.fresh (b ++ [j])) =
      (S.children b).map fun j => addr (b ++ [j]) :=
    List.map_congr_left fun j hj => h.ok.addr_update hx (h.ok.has_child hj) _
  have hleftChild : (tree'.node (addr b)).leftChild = (tree.node (addr b)).leftChild := by
    rw [addNode_leftChild _ _ _ _ _ _ _ _ (h.ne_fresh ha), if_neg (h.ne_fresh hb), if_neg]
    exact fun hc => hne (h.inj b a hb ha hc.2)
  rw [hmap, hleftChild]
  refine (h.children b hb).congr fun p hp => ?_
  obtain ⟨j, hj, rfl⟩ := List.mem_map.mp hp
  have hbj := h.ok.has_child hj
  cases left with
  | none =>
    exact (addNode_sibling_front _ _ _ _ _ _ _ (h.ne_fresh ha)).trans (if_neg (h.ne_fresh hbj))
  | some k =>
    have hak := h.ok.has_child (hleft k rfl)
    refine (addNode_sibling_after _ _ _ _ _ _ _ (h.ne_fresh hak)).trans ?_
    rw [if_neg (h.ne_fresh hbj), if_neg]
    exact fun he => hne (List.append_inj_left' (h.inj _ _ hbj hak he) rfl)

theorem Wired.children_parent :
    let tree' := tree.addNode (addr a) (left.map fun j => addr (a ++ [j])) i s w r
    Path (fun p => (tree'.node p).sibling) (tree'.node (addr a)).leftChild
      ((FPTree.place left x (S.children a)).map fun j =>
        Function.update addr (a ++ [x]) tree.fresh (a ++ [j])) := by
  intro tree'
  have hold : ∀ l : List Nat, (∀ j ∈ l, j ∈ S.children a) →
      (l.map fun j => Function.update addr (a ++ [x]) tree.fresh (a ++ [j])) =
        l.map fun j => addr (a ++ [j]) := fun l hl =>
    List.map_congr_left fun j hj => h.ok.addr_update hx (h.ok.has_child (hl j hj)) _
  have hpath := h.children a ha
  cases left with
  | none =>
    have hfront : ∀ p, (tree'.node p).sibling =
        if p = tree.fresh then (tree.node (addr a)).leftChild else (tree.node p).sibling :=
      fun p => addNode_sibling_front _ _ _ _ _ _ p (h.ne_fresh ha)
    have hleftChild : (tree'.node (addr a)).leftChild = some tree.fresh := by
      refine (addNode_leftChild _ _ _ _ _ _ _ _ (h.ne_fresh ha)).trans ?_
      rw [if_neg (h.ne_fresh ha), if_pos ⟨rfl, rfl⟩]
    rw [FPTree.place, List.map_cons, Function.update_self, hold _ fun _ hj => hj]
    refine ⟨hleftChild, ?_⟩
    show Path _ (tree'.node tree.fresh).sibling _
    rw [hfront, if_pos rfl]
    refine hpath.congr fun p hp => ?_
    obtain ⟨j, hj, rfl⟩ := List.mem_map.mp hp
    rw [hfront, if_neg (h.ne_fresh (h.ok.has_child hj))]
  | some k =>
    have hk := hleft k rfl
    have hak := h.ok.has_child hk
    have hafter : ∀ p, (tree'.node p).sibling =
        if p = tree.fresh then (tree.node (addr (a ++ [k]))).sibling
        else if p = addr (a ++ [k]) then some tree.fresh else (tree.node p).sibling :=
      fun p => addNode_sibling_after _ _ _ _ _ _ p (h.ne_fresh hak)
    have hleftChild : (tree'.node (addr a)).leftChild = (tree.node (addr a)).leftChild := by
      refine (addNode_leftChild _ _ _ _ _ _ _ _ (h.ne_fresh ha)).trans ?_
      rw [if_neg (h.ne_fresh ha), if_neg (by simp)]
    obtain ⟨xs, ys, hsplit⟩ := List.append_of_mem hk
    have hnd := h.ok.childNodup a
    rw [hsplit] at hnd
    have hkxs : k ∉ xs := fun hm => (List.nodup_append.mp hnd).2.2 k hm k List.mem_cons_self rfl
    have hkys : k ∉ ys := (List.nodup_cons.mp (List.nodup_append.mp hnd).2.1).1
    have hrest : ∀ l : List Nat, (∀ j ∈ l, j ∈ S.children a) → k ∉ l →
        ∀ p ∈ l.map fun j => addr (a ++ [j]), (tree'.node p).sibling = (tree.node p).sibling := by
      intro l hl hkl p hp
      obtain ⟨j, hj, rfl⟩ := List.mem_map.mp hp
      have haj := h.ok.has_child (hl j hj)
      rw [hafter, if_neg (h.ne_fresh haj), if_neg]
      intro he
      obtain rfl : j = k := by simpa using h.inj _ _ haj hak he
      exact hkl hj
    have hxs : ∀ j ∈ xs, j ∈ S.children a := fun j hj => by
      rw [hsplit]
      exact List.mem_append_left _ hj
    have hys : ∀ j ∈ ys, j ∈ S.children a := fun j hj => by
      rw [hsplit]
      exact List.mem_append_right _ (List.mem_cons_of_mem _ hj)
    rw [hsplit, List.map_append] at hpath
    rw [FPTree.place, hsplit, insertAfter_eq x hkxs, List.map_append, List.map_cons, List.map_cons,
      Function.update_self, hold xs hxs, hold ys hys, h.ok.addr_update hx hak, hleftChild]
    refine hpath.insert ?_ ?_ (hrest xs hxs hkxs) (hrest ys hys hkys)
    · rw [hafter, if_neg (h.ne_fresh hak), if_pos rfl]
    · rw [hafter, if_pos rfl]

end

/-- The chains with a new node in front of that of item `i`. -/
def addChain (chains : Nat → List Adr) (i : Nat) (a : Adr) : Nat → List Adr :=
  Function.update chains i (a :: chains i)

theorem addChain_apply (chains : Nat → List Adr) (i : Nat) (a : Adr) (j : Nat) :
    addChain chains i a j = if j = i then a :: chains i else chains j :=
  Function.update_apply ..

theorem Wired.chain_add (h : Wired tree S addr chains) (hx : x ∉ S.children a) (j : Nat)
    {parent : Ptr} {left : Option Ptr} :
    let tree' := tree.addNode parent left i s w r
    let chain := (addChain chains i (a ++ [x]) j).map (Function.update addr (a ++ [x]) tree.fresh)
    tree'.header j = first some chain none ∧
      Seg (fun p => (tree'.node p).nextHeader) (fun p => (tree'.node p).prevHeader) some none
        chain none := by
  intro tree' chain
  have hlt : ∀ k, ∀ p ∈ (chains k).map addr, p ≠ tree.fresh := by
    intro k p hp
    obtain ⟨b, hb, rfl⟩ := List.mem_map.mp hp
    exact h.ne_fresh (h.has hb)
  have hmem : ∀ p, tree.header i = some p → p ∈ (chains i).map addr := by
    intro p hp
    rw [h.header] at hp
    have hcases : first some ((chains i).map addr) none = none ∨
        ∃ q ∈ (chains i).map addr, first some ((chains i).map addr) none = some q :=
      first_eq_or_mem _ none
    rcases hcases with hnone | ⟨q, hq, hfirst⟩
    · rw [hnone] at hp
      cases hp
    · rw [hfirst] at hp
      cases hp
      exact hq
  have hnext : ∀ p, (tree'.node p).nextHeader =
      if p = tree.fresh then tree.header i else (tree.node p).nextHeader :=
    addNode_nextHeader _ _ _ _ _ _ _
  have hprev : ∀ p, (tree'.node p).prevHeader = if p = tree.fresh then none
      else if tree.header i = some p then some tree.fresh else (tree.node p).prevHeader :=
    fun p => addNode_prevHeader _ _ _ _ _ _ _ p fun he => hlt i _ (hmem _ he.symm) rfl
  have hold : ∀ k, (chains k).map (Function.update addr (a ++ [x]) tree.fresh) =
      (chains k).map addr := fun k =>
    List.map_congr_left fun b hb => h.ok.addr_update hx (h.has hb) _
  have hheader : tree'.header = Function.update tree.header i (some tree.fresh) :=
    addNode_header _ _ _ _ _ _ _
  by_cases hj : j = i
  · subst hj
    have hchain : chain = tree.fresh :: (chains j).map addr := by
      rw [← hold j]
      show List.map _ (addChain chains j (a ++ [x]) j) = _
      rw [addChain_apply, if_pos rfl, List.map_cons, Function.update_self]
    rw [hchain, hheader, Function.update_self]
    refine ⟨rfl, ?_, ?_, ?_⟩
    · simp [hprev]
    · simp only [hnext, if_true]
      exact h.header j
    · have hseg := h.chain j
      have hnd := h.map_nodup (fun b hb => h.has hb) (h.once j)
      have hhead := h.header j
      have hne := hlt j
      revert hseg hnd hhead hne
      cases (chains j).map addr with
      | nil => exact fun _ _ _ _ => trivial
      | cons p ps =>
        intro hseg hnd hhead hne
        refine hseg.setPrev (fun q hq => ?_) ?_ fun q hq => ?_
        · have hqp : p ≠ q := fun he => (List.nodup_cons.mp hnd).1 (he ▸ hq)
          rw [hprev, if_neg (hne q (List.mem_cons_of_mem _ hq)), hhead, first_cons,
            if_neg fun he => hqp (Option.some.inj he)]
        · rw [hprev, if_neg (hne p List.mem_cons_self), hhead, first_cons, if_pos rfl]
        · rw [hnext, if_neg (hne q hq)]
  · have hchain : chain = (chains j).map addr := by
      rw [← hold j]
      show List.map _ (addChain chains i (a ++ [x]) j) = _
      rw [addChain_apply, if_neg hj]
    rw [hchain, hheader, Function.update_of_ne hj]
    refine ⟨h.header j, (h.chain j).congr (fun p hp => ?_) fun p hp => ?_⟩
    · rw [hnext, if_neg (hlt j p hp)]
    · rw [hprev, if_neg (hlt j p hp), if_neg]
      exact fun he => h.chains_disjoint hj hp (hmem _ he)

theorem Wired.addNode (h : Wired tree S addr chains) (ha : S.Has a) (hx : x ∉ S.children a)
    (hleft : ∀ j ∈ left, j ∈ S.children a) :
    Wired (tree.addNode (addr a) (left.map fun j => addr (a ++ [j])) i s w r)
      (S.add a x (FPTree.place left x (S.children a)))
      (Function.update addr (a ++ [x]) tree.fresh) (addChain chains i (a ++ [x])) := by
  have hperm := place_perm x hleft (h.ok.childNodup a)
  have hself := Function.update_self (a ++ [x]) tree.fresh addr
  have hnew : a ++ [x] ∉ S.nodes := fun hm => hx ((h.ok.child a x).mpr hm)
  have hparent := fun p => addNode_field tree (addr a) (left.map fun j => addr (a ++ [j])) i s w r p
    Node.parent fun _ _ _ _ _ => rfl
  refine ⟨S.add_ok h.ok ha hx hperm, ?_, ?_, ?_, ?_, ?_, ?_, ?_, ?_, fun j => (h.chain_add hx j).1,
    fun j => (h.chain_add hx j).2, ?_, ?_⟩
  · rw [h.ok.addr_update hx S.has_root, h.root]
  · intro b c hb hc heq
    rcases Shape.has_add.mp hb with rfl | hb
    · rcases Shape.has_add.mp hc with rfl | hc
      · rfl
      · rw [hself, h.ok.addr_update hx hc] at heq
        exact absurd heq.symm (h.ne_fresh hc)
    · rw [h.ok.addr_update hx hb] at heq
      rcases Shape.has_add.mp hc with rfl | hc
      · rw [hself] at heq
        exact absurd heq (h.ne_fresh hb)
      · rw [h.ok.addr_update hx hc] at heq
        exact h.inj b c hb hc heq
  · intro b hb
    rw [addNode_fresh]
    rcases Shape.has_add.mp hb with rfl | hb
    · rw [hself]
      exact Nat.lt_succ_self _
    · rw [h.ok.addr_update hx hb]
      exact Nat.lt_succ_of_lt (h.fresh b hb)
  · intro b j hm
    rw [hparent]
    rcases List.mem_cons.mp hm with heq | hm
    · obtain rfl : b = a := List.append_inj_left' heq rfl
      rw [heq, hself, if_pos rfl, h.ok.addr_update hx ha]
      rfl
    · have hbj := S.has_node hm
      rw [h.ok.addr_update hx hbj, if_neg (h.ne_fresh hbj),
        h.ok.addr_update hx (h.ok.closed b j hm), h.parent b j hm]
  · intro b hb
    by_cases hba : b = a
    · subst hba
      rw [h.ok.addr_update hx ha, Shape.children_add, if_pos rfl]
      exact h.children_parent ha hx hleft
    · rw [Shape.children_add, if_neg hba]
      rcases Shape.has_add.mp hb with rfl | hb
      · rw [hself, if_pos rfl, addNode_leftChild _ _ _ _ _ _ _ _ (h.ne_fresh ha), if_pos rfl]
        rfl
      · rw [if_neg (h.ok.ne_new hx hb), h.ok.addr_update hx hb]
        exact h.children_other ha hx hleft hb hba
  · intro j b hb
    rw [addChain_apply] at hb
    split at hb
    · exact (List.mem_cons.mp hb).elim (fun he => he ▸ List.mem_cons_self) fun hb =>
        List.mem_cons_of_mem _ (h.listed i b hb)
    · exact List.mem_cons_of_mem _ (h.listed j b hb)
  · intro j
    rw [addChain_apply]
    split
    · exact List.nodup_cons.mpr ⟨fun hm => hnew (h.listed i _ hm), h.once i⟩
    · exact h.once j
  · have hin : ∀ j, ∀ b ∈ addChain chains i (a ++ [x]) j,
        b = a ++ [x] ∧ j = i ∨ b ≠ a ++ [x] ∧ b ∈ chains j := by
      intro j b hb
      by_cases hba : b = a ++ [x]
      · subst hba
        refine .inl ⟨rfl, ?_⟩
        by_contra hj
        rw [addChain_apply, if_neg hj] at hb
        exact hnew (h.listed j _ hb)
      · rw [addChain_apply] at hb
        split at hb
        · next hj => exact .inr ⟨hba, hj ▸ List.mem_of_ne_of_mem hba hb⟩
        · exact .inr ⟨hba, hb⟩
    intro j k b hj hk
    rcases hin j b hj with ⟨rfl, rfl⟩ | ⟨hne, hj⟩
    · exact ((hin k _ hk).resolve_right fun hk => hk.1 rfl).2.symm
    · exact h.disjoint j k b hj ((hin k b hk).resolve_left fun hk => hne hk.1).2
  · intro j
    rw [addNode_redundancy, addChain_apply]
    by_cases hj : j = i
    · subst hj
      rw [h.redundancy]
      simp
    · rw [Function.update_of_ne hj, if_neg hj, h.redundancy]
  · rw [addNode_totalNodes, h.total]
    simp [Shape.add]

theorem Linked.addNode (h : Linked tree S addr) (ha : S.Has a) (hi : i ∉ S.children a)
    (hsmall : i < itemLimit) (hleft : ∀ j ∈ left, j ∈ S.children a) :
    Linked (tree.addNode (addr a) (left.map fun j => addr (a ++ [j])) i s w r)
      (S.add a i (FPTree.place left i (S.children a)))
      (Function.update addr (a ++ [i]) tree.fresh) := by
  have hself := Function.update_self (a ++ [i]) tree.fresh addr
  have hroot : addr [] ≠ tree.fresh := h.ne_fresh S.has_root
  rw [h.root] at hroot
  have hitem := fun p => addNode_field tree (addr a) (left.map fun j => addr (a ++ [j])) i s w r p
    Node.itemNo fun _ _ _ _ _ => rfl
  have hparent := fun p => addNode_field tree (addr a) (left.map fun j => addr (a ++ [j])) i s w r p
    Node.parent fun _ _ _ _ _ => rfl
  have hchains : addChain S.header i (a ++ [i]) =
      (S.add a i (FPTree.place left i (S.children a))).header :=
    funext fun j => (addChain_apply ..).trans (Shape.header_add j).symm
  have hwired : Wired (tree.addNode (addr a) (left.map fun j => addr (a ++ [j])) i s w r)
      (S.add a i (FPTree.place left i (S.children a))) (Function.update addr (a ++ [i]) tree.fresh)
      (addChain S.header i (a ++ [i])) := h.wired.addNode ha hi hleft
  rw [hchains] at hwired
  refine hwired.linked ?_ ?_ ?_ ?_ ?_
  · rw [addNode_maxItems]
    exact h.maxItems
  · intro b j hm
    rcases List.mem_cons.mp hm with heq | hm
    · obtain rfl : j = i := List.singleton_inj.mp (List.append_inj_right' heq rfl)
      exact hsmall
    · exact h.small b j hm
  · rw [hitem, if_neg hroot, h.rootItem]
  · rw [hparent, if_neg hroot, h.rootParent]
  · intro b j hm
    rw [hitem]
    rcases List.mem_cons.mp hm with heq | hm
    · obtain rfl : j = i := List.singleton_inj.mp (List.append_inj_right' heq rfl)
      rw [heq, hself, if_pos rfl]
      rfl
    · have hbj := S.has_node hm
      rw [h.addr_update hi hbj, if_neg (h.ne_fresh hbj), h.item b j hm]

end Added

end StreamMill.Swim

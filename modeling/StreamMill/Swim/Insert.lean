import StreamMill.Lib.Loop
import StreamMill.Swim.Links

/-!
# StreamMill.Swim.Insert

`InsertTrans` in memory refines the insertion of `FPTree.Tree`, as long as the items are below
`itemLimit`.
-/

namespace StreamMill.Swim

open Lib
open FPTree (Trans Adr weightOf)

variable {tree tree' : Tree} {T : FPTree.Tree} {addr : Adr → Ptr} {a : Adr} {i s : Nat}

/-- The links, the supports and the marks are those of `T`. -/
structure Refines (tree : Tree) (T : FPTree.Tree) (addr : Adr → Ptr) : Prop where
  links : Linked tree (shape T) addr
  support : ∀ a, (shape T).Has a →
    (tree.node (addr a)).support = BitVec.ofNat 32 (T.node a).support
  single : ∀ i, tree.singleSupport i = BitVec.ofNat 32 (T.singleSupport i)
  flag : ∀ a, (shape T).Has a → (tree.node (addr a)).flag = .nil

section

variable (h : Refines tree T addr)
include h

theorem Refines.addSupport (ha : (shape T).Has a) (s : Nat) :
    Refines (tree.addSupport (addr a) s) (T.visit a s) addr := by
  refine ⟨h.links.congr (setNode_links _ _ fun n => rfl), fun b hb => ?_, h.single, fun b hb => ?_⟩
  · rw [Tree.addSupport, setNode_node]
    by_cases hba : b = a
    · subst hba
      simp [FPTree.Tree.visit, h.support b ha, BitVec.ofNat_add]
    · rw [if_neg fun he => hba (h.links.inj b a hb ha he), h.support b hb]
      simp [FPTree.Tree.visit, hba]
  · rw [Tree.addSupport, setNode_node, apply_ite Node.flag, ite_self, h.flag b hb]

theorem Refines.addSingle (i s : Nat) :
    Refines (tree.addSingle i s) (T.addSingle i s) addr := by
  refine ⟨h.links.congr rfl, h.support, fun j => ?_, h.flag⟩
  by_cases hj : j = i
  · subst hj
    simp [Tree.addSingle, FPTree.Tree.addSingle, h.single, BitVec.ofNat_add]
  · simp [Tree.addSingle, FPTree.Tree.addSingle, hj, h.single]

theorem Refines.setReturn (b : Adr) (r : Option Adr) :
    Refines tree (T.setReturn b r) addr := by
  refine ⟨h.links, fun c hc => ?_, h.single, h.flag⟩
  rw [h.support c hc]
  by_cases hcb : c = b
  · subst hcb
    simp [FPTree.Tree.setReturn]
  · simp [FPTree.Tree.setReturn, hcb]

theorem Refines.setNodeReturn (p : Ptr) (r : Option Ptr) :
    Refines (tree.setNode p fun n => { n with returnFreqAdr := r }) T addr := by
  refine ⟨h.links.congr (setNode_links _ _ fun n => rfl), fun c hc => ?_, h.single, fun c hc => ?_⟩
  · rw [setNode_node, apply_ite Node.support, ite_self, h.support c hc]
  · rw [setNode_node, apply_ite Node.flag, ite_self, h.flag c hc]

theorem Refines.addNode (ha : (shape T).Has a) (hi : i ∉ T.children a) (hsmall : i < itemLimit)
    (left : Option Nat) (hleft : ∀ j ∈ left, j ∈ T.children a) (s : Nat) (w : BitVec 16)
    (r : Option Ptr) :
    Refines (tree.addNode (addr a) (left.map fun j => addr (a ++ [j])) i s w r)
      (T.newNode a i s (FPTree.place left i (T.children a)))
      (Function.update addr (a ++ [i]) tree.fresh) := by
  have hsupport : ∀ p, ((tree.addNode (addr a) (left.map fun j => addr (a ++ [j])) i s w r).node
      p).support = if p = tree.fresh then BitVec.ofNat 32 s else (tree.node p).support :=
    fun p => addNode_field tree _ _ i s w r p Node.support fun _ _ _ _ _ => rfl
  have hflag : ∀ p, ((tree.addNode (addr a) (left.map fun j => addr (a ++ [j])) i s w r).node
      p).flag = if p = tree.fresh then .nil else (tree.node p).flag :=
    fun p => addNode_field tree _ _ i s w r p Node.flag fun _ _ _ _ _ => rfl
  have hhas : ∀ b, (shape (T.newNode a i s (FPTree.place left i (T.children a)))).Has b →
      b = a ++ [i] ∨ (shape T).Has b := fun b => (Shape.has_add (S := shape T)).mp
  refine ⟨h.links.addNode ha hi hsmall hleft, fun b hb => ?_, fun j => ?_, fun b hb => ?_⟩
  · rcases hhas b hb with rfl | hb
    · rw [hsupport]
      simp [FPTree.Tree.newNode]
    · rw [h.links.addr_update hi hb, hsupport, if_neg (h.links.ne_fresh hb), h.support b hb]
      simp [FPTree.Tree.newNode, h.links.ok.ne_new hi hb]
  · by_cases hj : j = i
    · subst hj
      simp [FPTree.Tree.newNode, h.single, BitVec.ofNat_add]
    · simp [FPTree.Tree.newNode, hj, h.single]
  · rcases hhas b hb with rfl | hb
    · rw [Function.update_self, hflag, if_pos rfl]
    · rw [h.links.addr_update hi hb, hflag, if_neg (h.links.ne_fresh hb), h.flag b hb]

end

theorem descend_found {items : List Nat} {c : Nat} {r : Option Ptr} {parent node : Ptr}
    (hfind : tree.findChild parent c = .ok (some node)) :
    descend s r tree parent (c :: items) = descend s r
      ((if items = [] then (tree.addSupport node s).setNode node fun n =>
          { n with returnFreqAdr := r } else tree.addSupport node s).addSingle c s) node items := by
  rw [descend, hfind]
  rfl

theorem descend_refines (items : List Nat) (r : Option Ptr) (h : Refines tree T addr)
    (ha : (shape T).Has a) :
    let out := FPTree.descend s none T a items
    ∃ tree', descend s r tree (addr a) items = .ok (tree', addr out.2.1, out.2.2) ∧
      Refines tree' out.1 addr ∧ (shape out.1).Has out.2.1 := by
  induction items generalizing tree T a with
  | nil => exact ⟨tree, rfl, h, ha⟩
  | cons c items ih =>
    have hfind := h.links.findChild_eq ha c
    have hchildren : (shape T).children a = T.children a := rfl
    by_cases hc : c ∈ T.children a
    · have hchild : (shape T).Has (a ++ [c]) := h.links.ok.has_child hc
      rw [hchildren, if_pos hc] at hfind
      rw [descend_found hfind, FPTree.descend, if_pos hc]
      by_cases hitems : items = []
      · simp only [if_pos hitems]
        exact ih ((((h.addSupport hchild s).setNodeReturn _ r).addSingle c s).setReturn (a ++ [c])
          none) hchild
      · simp only [if_neg hitems]
        exact ih ((h.addSupport hchild s).addSingle c s) hchild
    · rw [hchildren, if_neg hc] at hfind
      refine ⟨tree, ?_, ?_, ?_⟩
      · rw [descend, hfind, FPTree.descend, if_neg hc]
        rfl
      · rw [FPTree.descend, if_neg hc]
        exact h
      · rw [FPTree.descend, if_neg hc]
        exact ha

theorem grow_refines {items : List Nat} (r : Option Ptr) (h : Refines tree T addr)
    (ha : (shape T).Has a) (hsmall : ∀ c ∈ items, c < itemLimit)
    (hno : ∀ c ∈ items.head?, c ∉ T.children a) :
    ∃ addr', Refines (grow s r tree (addr a) items) (FPTree.grow s none T a items) addr' := by
  induction items generalizing tree T addr a with
  | nil => exact ⟨addr, h⟩
  | cons c items ih =>
    obtain ⟨hc, hsmall⟩ := List.forall_mem_cons.mp hsmall
    have hnew := h.addNode ha (hno c rfl) hc none (by simp) s 0
      (if items = [] then r else none)
    have hself := Function.update_self (a ++ [c]) tree.fresh addr
    have hnone : (T.newNode a c s (c :: T.children a)).children (a ++ [c]) = [] := by
      simp [FPTree.Tree.newNode]
    have hhas : (shape (T.newNode a c s (c :: T.children a))).Has (a ++ [c]) :=
      (Shape.has_add (S := shape T)).mpr (.inl rfl)
    have hrest : ∀ T', Refines (tree.addNode (addr a) none c s 0 (if items = [] then r else none))
        T' (Function.update addr (a ++ [c]) tree.fresh) → (shape T').Has (a ++ [c]) →
        T'.children (a ++ [c]) = [] →
        ∃ addr', Refines (grow s r tree (addr a) (c :: items))
          (FPTree.grow s none T' (a ++ [c]) items) addr' := by
      intro T' hT' hhas' hnone'
      have hgrow := ih hT' hhas' hsmall fun d _ => by simp [hnone']
      rw [hself] at hgrow
      exact hgrow
    rw [FPTree.grow]
    by_cases hitems : items = []
    · simp only [if_pos hitems]
      exact hrest _ (hnew.setReturn (a ++ [c]) none) hhas hnone
    · simp only [if_neg hitems]
      exact hrest _ hnew hhas hnone

theorem descend_stops (T : FPTree.Tree) (a : Adr) (items : List Nat) :
    let out := FPTree.descend s none T a items
    (∀ c ∈ out.2.2.head?, c ∉ out.1.children out.2.1) ∧ ∀ c ∈ out.2.2, c ∈ items := by
  induction items generalizing T a with
  | nil => simp [FPTree.descend]
  | cons c items ih =>
    rw [FPTree.descend]
    split
    · obtain ⟨hstop, hsub⟩ := ih _ (a ++ [c])
      exact ⟨hstop, fun d hd => List.mem_cons_of_mem _ (hsub d hd)⟩
    · next hc => exact ⟨by simpa using hc, fun d hd => hd⟩

theorem insertTrans_refines (h : Refines tree T addr) {t : Trans}
    (hsmall : ∀ c ∈ t.items, c < itemLimit) :
    ∃ tree' addr', insertTrans tree t = .ok (tree', (FPTree.insertTrans T t).2) ∧
      Refines tree' (FPTree.insertTrans T t).1 addr' := by
  have hroot := (shape T).has_root
  have hvisit := h.addSupport hroot t.support
  obtain ⟨tree₁, hdescend, h₁, hhas⟩ := descend_refines t.items none hvisit hroot
  rw [h.links.root] at hdescend
  obtain ⟨hstop, hsub⟩ := descend_stops (T.visit [] t.support) [] t.items
  obtain ⟨addr', hgrow⟩ := grow_refines none h₁ hhas (fun c hc => hsmall c (hsub c hc)) hstop
  refine ⟨_, addr', ?_, hgrow⟩
  rw [insertTrans, insertTransAdr, hdescend]
  rfl

theorem insertAll_refines {ts : List Trans} (h : Refines tree T addr)
    (hsmall : ∀ t ∈ ts, ∀ c ∈ t.items, c < itemLimit) :
    ∃ tree' addr', insertAll tree ts = .ok tree' ∧ Refines tree' (FPTree.build T ts) addr' := by
  induction ts generalizing tree T addr with
  | nil => exact ⟨tree, addr, rfl, h⟩
  | cons t ts ih =>
    obtain ⟨ht, hsmall⟩ := List.forall_mem_cons.mp hsmall
    obtain ⟨tree₁, addr₁, hinsert, h₁⟩ := insertTrans_refines h ht
    obtain ⟨tree', addr', hall, h'⟩ := ih h₁ hsmall
    refine ⟨tree', addr', ?_, h'⟩
    rw [insertAll, List.foldlM_cons, hinsert]
    exact hall

/-- A new tree, or one that was emptied. -/
def Cleared (tree : Tree) : Prop :=
  (∃ maxItems, tree = newTree maxItems) ∨ ∃ old, root < old.fresh ∧ emptyTree old = .ok tree

theorem Cleared.refines (h : Cleared tree) :
    Refines tree (FPTree.newTree tree.maxItems) fun _ => root := by
  have hfields : root < tree.fresh ∧ tree.totalNodes = 0 ∧
      tree.node root = { Node.zero with itemNo := -1 } ∧ tree.header = (fun _ => none) ∧
      tree.redundancy = (fun _ => 0) ∧ tree.singleSupport = fun _ => 0 := by
    rcases h with ⟨maxItems, rfl⟩ | ⟨old, hold, hempty⟩
    · exact ⟨Nat.zero_lt_one, rfl, rfl, rfl, rfl, rfl⟩
    · obtain ⟨-, -, htree⟩ := bind_eq_ok hempty
      cases htree
      exact ⟨hold, rfl, Function.update_self root _ old.node, rfl, rfl, rfl⟩
  obtain ⟨hfresh, htotal, hnode, hheader, hred, hsingle⟩ := hfields
  have hno : ∀ a, (shape (FPTree.newTree tree.maxItems)).Has a → a = [] := by
    simpa [shape, FPTree.newTree, Shape.Has] using ha
  have hok : (shape (FPTree.newTree tree.maxItems)).Ok :=
    ⟨List.nodup_nil, List.not_mem_nil, fun a i hm => absurd hm List.not_mem_nil,
      fun a i => ⟨fun hm => absurd hm List.not_mem_nil, fun hm => absurd hm List.not_mem_nil⟩,
      fun a => List.nodup_nil⟩
  refine ⟨⟨hok, rfl, rfl, fun a b ha hb _ => (hno a ha).trans (hno b hb).symm, fun a _ => hfresh,
    fun a i hm => absurd hm List.not_mem_nil, by rw [hnode], by rw [hnode]; rfl,
    fun a i hm => absurd hm List.not_mem_nil, fun a i hm => absurd hm List.not_mem_nil,
    fun a _ => ?_, fun i => ?_, fun i => trivial, fun i => ?_, htotal⟩, fun a _ => ?_, fun i => ?_,
    fun a _ => ?_⟩
  · rw [hnode]
    rfl
  · rw [hheader]
    rfl
  · rw [hred]
    rfl
  · rw [hnode]
    rfl
  · rw [hsingle]
    rfl
  · rw [hnode]
    rfl

end StreamMill.Swim

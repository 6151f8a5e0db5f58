import StreamMill.Lib.Range
import StreamMill.Swim.Verify

/-!
# StreamMill.Swim.Prune

`PruneTree`: the nodes that were last seen before a given window are marked, the lists of children
are relinked around them, and then they are taken out of the chains. A pattern tree stays one
(`Patterns.prune`) if no node that stays hangs on a node that goes.
-/

namespace StreamMill.Swim

open Lib
open FPTree (Trans Adr)

/-! ## The passes -/

def Tree.expired (tree : Tree) (p : Ptr) : Bool := (tree.node p).flag = .expired

def Tree.expire (tree : Tree) (minAllowedEnd : Nat) (node : Ptr) : Tree :=
  if (tree.node node).endId.toNat < minAllowedEnd then tree.setFlag node .expired else tree

def markExpired (tree : Tree) (minAllowedEnd : Nat) : Except Fault Tree :=
  tree.items.foldlM (fun tree i => do
    let nodes ← tree.chain i
    return nodes.foldl (fun tree node => tree.expire minAllowedEnd node) tree) tree

/-- `while (node && (node->flag == EXPIRED)) node = node->sibling` -/
def Tree.skipExpired (tree : Tree) (node : Option Ptr) : Except Fault (Option Ptr) :=
  walk .endless tree.expired (fun p => (tree.node p).sibling) tree.fresh node

def fixSiblings : Nat → Tree → Option Ptr → Except Fault Tree
  | _, tree, none => .ok tree
  | 0, _, some _ => .error .endless
  | fuel + 1, tree, some node => do
    let next ← tree.skipExpired (tree.node node).sibling
    fixSiblings fuel (tree.setNode node fun n => { n with sibling := next }) next

def fixChildren (tree : Tree) (parent : Ptr) : Except Fault Tree := do
  let node ← tree.skipExpired (tree.node parent).leftChild
  fixSiblings tree.fresh (tree.setNode parent fun n => { n with leftChild := node }) node

def relinkChildren (tree : Tree) : Except Fault Tree := do
  let tree ← tree.items.foldlM (fun tree i => do
    let parents ← tree.chain i
    parents.foldlM (fun tree parent => if tree.expired parent then .ok tree
      else fixChildren tree parent) tree) tree
  fixChildren tree root

def Tree.unlink (tree : Tree) (i : Nat) (node : Ptr) : Tree :=
  let n := tree.node node
  let tree :=
    match n.prevHeader with
    | some prev => tree.setNode prev fun m => { m with nextHeader := n.nextHeader }
    | none => { tree with header := Function.update tree.header i n.nextHeader }
  let tree :=
    match n.nextHeader with
    | some next => tree.setNode next fun m => { m with prevHeader := n.prevHeader }
    | none => tree
  { tree with
    totalNodes := tree.totalNodes - 1
    redundancy := Function.update tree.redundancy i (tree.redundancy i - 1)
    singleSupport := Function.update tree.singleSupport i (tree.singleSupport i - n.support) }

/-- The third pass, over one chain from `node` on. -/
def unlinkExpired (i : Nat) : Nat → Tree → Option Ptr → Except Fault (Tree × Nat)
  | _, tree, none => .ok (tree, 0)
  | 0, _, some _ => .error .endless
  | fuel + 1, tree, some node =>
    if tree.expired node then do
      let tree := tree.unlink i node
      let (tree, deleted) ← unlinkExpired i fuel tree (tree.node node).nextHeader
      return (tree, deleted + 1)
    else unlinkExpired i fuel tree (tree.node node).nextHeader

def pruneTree (tree : Tree) (minAllowedEnd : Nat) : Except Fault (Tree × Nat) := do
  let tree ← markExpired tree minAllowedEnd
  let tree ← relinkChildren tree
  tree.items.foldlM (fun s i => do
    let (tree, deleted) ← unlinkExpired i s.1.fresh s.1 (s.1.header i)
    return (tree, s.2 + deleted)) (tree, 0)

/-! ## The shape that is left -/

def Shape.filter (S : Shape) (K : Adr → Bool) : Shape where
  maxItems := S.maxItems
  nodes := S.nodes.filter K
  children a := if a = [] ∨ K a then (S.children a).filter fun i => K (a ++ [i]) else []

variable {tree tree' : Tree} {S : Shape} {addr : Adr → Ptr} {ends : Adr → BitVec 16} {a b : Adr}
  {i : Nat} {K : Adr → Bool} {chains : Nat → List Adr}

/-- No node with `K` hangs on one without. -/
def Shape.Closed (S : Shape) (K : Adr → Bool) : Prop :=
  ∀ a i, a ++ [i] ∈ S.nodes → K (a ++ [i]) → a = [] ∨ K a

theorem Shape.has_filter : (S.filter K).Has a ↔ S.Has a ∧ (a = [] ∨ K a) := by
  simp only [Has, filter, List.mem_cons, List.mem_filter]
  tauto

theorem Shape.children_filter (ha : a = [] ∨ K a) :
    (S.filter K).children a = (S.children a).filter fun i => K (a ++ [i]) :=
  if_pos ha

theorem Shape.header_filter (i : Nat) : (S.filter K).header i = (S.header i).filter K := by
  rw [header, header, filter, List.filter_filter, List.filter_filter]
  refine List.filter_congr fun a _ => ?_
  rw [Bool.and_comm]

theorem Shape.filter_ok (h : S.Ok) (hK : S.Closed K) : (S.filter K).Ok := by
  have hmem : ∀ {a}, a ∈ (S.filter K).nodes ↔ a ∈ S.nodes ∧ K a := List.mem_filter
  refine ⟨h.nodup.filter _, fun hm => h.root (hmem.mp hm).1, fun a i hm => ?_, fun a i => ?_,
    fun a => ?_⟩
  · obtain ⟨hai, hKai⟩ := hmem.mp hm
    exact has_filter.mpr ⟨h.closed a i hai, hK a i hai hKai⟩
  · rw [hmem, ← h.child]
    by_cases ha : a = [] ∨ K a
    · rw [children_filter ha, List.mem_filter]
    · have hnil : (S.filter K).children a = [] := if_neg ha
      rw [hnil]
      refine ⟨fun hi => (List.not_mem_nil hi).elim, fun hi => ?_⟩
      exact absurd (hK a i ((h.child a i).mp hi.1) hi.2) ha
  · by_cases ha : a = [] ∨ K a
    · rw [children_filter ha]
      exact (h.childNodup a).filter _
    · have hnil : (S.filter K).children a = [] := if_neg ha
      rw [hnil]
      exact List.nodup_nil

/-! ## Marks -/

section Marks

variable {F : Ptr → Flag} {w : Nat}

theorem expire_withFlags (tree : Tree) (F : Ptr → Flag) (w : Nat) (p : Ptr) :
    (tree.withFlags F).expire w p = tree.withFlags fun q =>
      if q = p ∧ (tree.node q).endId.toNat < w then .expired else F q := by
  have hend : ((tree.withFlags F).node p).endId = (tree.node p).endId := rfl
  rw [Tree.expire, hend]
  split
  · next h =>
    rw [setFlag_withFlags]
    congr 1
    funext q
    by_cases hq : q = p
    · subst hq
      simp [h]
    · simp [hq]
  · next h =>
    congr 1
    funext q
    by_cases hq : q = p
    · subst hq
      simp [h]
    · simp [hq]

theorem expire_foldl (tree : Tree) (F : Ptr → Flag) (w : Nat) (l : List Ptr) :
    l.foldl (fun tree node => tree.expire w node) (tree.withFlags F) = tree.withFlags fun q =>
      if q ∈ l ∧ (tree.node q).endId.toNat < w then .expired else F q := by
  induction l generalizing F with
  | nil => simp
  | cons p l ih =>
    rw [List.foldl_cons, expire_withFlags, ih]
    congr 1
    funext q
    by_cases hq : q ∈ l
    · by_cases hw : (tree.node q).endId.toNat < w <;> simp [hq, hw]
    · simp [hq]

theorem Wired.mark_foldlM (h : Wired tree S addr chains) (F : Ptr → Flag) (w : Nat)
    (l : List Nat) :
    l.foldlM (fun (tree : Tree) i => do
        let nodes ← tree.chain i
        return nodes.foldl (fun tree node => tree.expire w node) tree) (tree.withFlags F) =
      .ok (tree.withFlags fun q =>
        if (∃ i ∈ l, q ∈ (chains i).map addr) ∧ (tree.node q).endId.toNat < w then .expired
        else F q) := by
  induction l generalizing F with
  | nil => simp [pure, Except.pure]
  | cons i l ih =>
    have hchain : (tree.withFlags F).chain i = .ok ((chains i).map addr) := h.chain_eq i
    rw [List.foldlM_cons, hchain]
    change l.foldlM _ (List.foldl _ (tree.withFlags F) ((chains i).map addr)) = _
    rw [expire_foldl, ih]
    congr 2
    funext q
    have hcons : (∃ j ∈ i :: l, q ∈ (chains j).map addr) ↔
        q ∈ (chains i).map addr ∨ ∃ j ∈ l, q ∈ (chains j).map addr := by
      simp
    rw [if_congr (and_congr_left' hcons) rfl rfl]
    by_cases hw : (tree.node q).endId.toNat < w
    · by_cases hl : ∃ j ∈ l, q ∈ (chains j).map addr
      · rw [if_pos ⟨hl, hw⟩, if_pos ⟨.inr hl, hw⟩]
      · rw [if_neg fun hand => hl hand.1]
        refine if_congr (and_congr_left' ?_) rfl rfl
        exact (or_iff_left hl).symm
    · rw [if_neg fun hand => hw hand.2, if_neg fun hand => hw hand.2, if_neg fun hand => hw hand.2]

theorem Wired.mark (h : Wired tree S addr chains)
    (hall : ∀ a ∈ S.nodes, ∃ i ∈ tree.items, a ∈ chains i) (hflag : Unmarked tree S addr) (w : Nat)
    (hK : ∀ a ∈ S.nodes, K a = decide (w ≤ (tree.node (addr a)).endId.toNat)) :
    ∃ F, markExpired tree w = .ok (tree.withFlags F) ∧
      ∀ a ∈ S.nodes, (F (addr a) = .expired ↔ K a = false) := by
  have hmark := h.mark_foldlM (fun p => (tree.node p).flag) w tree.items
  refine ⟨_, hmark, fun a ha => ?_⟩
  obtain ⟨i, hi, hai⟩ := hall a ha
  have hex : ∃ i ∈ tree.items, addr a ∈ (chains i).map addr := ⟨i, hi, List.mem_map_of_mem hai⟩
  rw [hK a ha, decide_eq_false_iff_not, Nat.not_le]
  by_cases hw : (tree.node (addr a)).endId.toNat < w
  · rw [if_pos ⟨hex, hw⟩]
    exact ⟨fun _ => hw, fun _ => rfl⟩
  · rw [if_neg fun hand => hw hand.2]
    exact ⟨fun he => absurd he (hflag a ha), fun hlt => absurd hlt hw⟩

end Marks

/-! ## Lists of children -/

def Tree.withLists (tree : Tree) (L B : Ptr → Option Ptr) : Tree :=
  { tree with node := fun p => { tree.node p with leftChild := L p, sibling := B p } }

section Lists

variable {L B : Ptr → Option Ptr} {o : Option Ptr} {xs : List Ptr}

theorem withLists_self (tree : Tree) :
    tree.withLists (fun p => (tree.node p).leftChild) (fun p => (tree.node p).sibling) = tree := rfl

theorem setSibling_withLists (tree : Tree) (L B : Ptr → Option Ptr) (p : Ptr) (next : Option Ptr) :
    (tree.withLists L B).setNode p (fun n => { n with sibling := next }) =
      tree.withLists L (Function.update B p next) := by
  simp only [Tree.withLists, Tree.setNode, Tree.mk.injEq, true_and, and_true]
  funext q
  by_cases hq : q = p
  · subst hq
    simp
  · simp [hq]

theorem setLeftChild_withLists (tree : Tree) (L B : Ptr → Option Ptr) (p : Ptr)
    (child : Option Ptr) :
    (tree.withLists L B).setNode p (fun n => { n with leftChild := child }) =
      tree.withLists (Function.update L p child) B := by
  simp only [Tree.withLists, Tree.setNode, Tree.mk.injEq, true_and, and_true]
  funext q
  by_cases hq : q = p
  · subst hq
    simp
  · simp [hq]

theorem skipExpired_eq (hpath : Path B o xs) (hlen : xs.length ≤ tree.fresh) :
    (tree.withLists L B).skipExpired o = .ok (xs.dropWhile tree.expired).head? :=
  walk_path Fault.endless tree.expired hpath hlen

theorem filter_skip (tree : Tree) (xs : List Ptr) :
    (xs.dropWhile tree.expired).filter (fun p => !tree.expired p) =
      xs.filter fun p => !tree.expired p :=
  filter_dropWhile fun p _ hp => by rw [hp]; rfl

theorem fixSiblings_eq {fuel : Nat} (hpath : Path B o xs) (hnd : xs.Nodup)
    (hhead : ∀ p ∈ xs.head?, tree.expired p = false) (hlen : xs.length ≤ tree.fresh)
    (hfuel : xs.length ≤ fuel) :
    ∃ B', fixSiblings fuel (tree.withLists L B) o = .ok (tree.withLists L B') ∧
      Path B' o (xs.filter fun p => !tree.expired p) ∧ ∀ p, p ∉ xs → B' p = B p := by
  induction fuel generalizing B o xs with
  | zero =>
    obtain rfl := List.eq_nil_of_length_eq_zero (Nat.le_zero.mp hfuel)
    cases hpath
    exact ⟨B, rfl, rfl, fun _ _ => rfl⟩
  | succ fuel ih =>
    cases xs with
    | nil =>
      cases hpath
      exact ⟨B, rfl, rfl, fun _ _ => rfl⟩
    | cons p xs =>
      obtain ⟨rfl, hpath⟩ := hpath
      obtain ⟨hp, hnd⟩ := List.nodup_cons.mp hnd
      have hsub := List.dropWhile_sublist (l := xs) tree.expired
      have hrest : Path (Function.update B p (xs.dropWhile tree.expired).head?)
          (xs.dropWhile tree.expired).head? (xs.dropWhile tree.expired) := by
        refine (hpath.dropWhile tree.expired).congr fun q hq => Function.update_of_ne ?_ _ _
        rintro rfl
        exact hp (hsub.subset hq)
      have hle := Nat.le_of_succ_le hlen
      obtain ⟨B', hfix, hpath', hout⟩ := ih hrest (hnd.sublist hsub) head_dropWhile
        (hsub.length_le.trans hle) (hsub.length_le.trans (Nat.le_of_succ_le_succ hfuel))
      have hkeep : tree.expired p = false := hhead p rfl
      refine ⟨B', ?_, ?_, fun q hq => ?_⟩
      · have hskip := skipExpired_eq (L := L) hpath hle
        rw [← setSibling_withLists] at hfix
        change ((tree.withLists L B).skipExpired (B p) >>= _) = _
        rw [hskip]
        exact hfix
      · rw [List.filter_cons_of_pos (by rw [hkeep]; rfl)]
        refine ⟨rfl, ?_⟩
        rw [hout p fun hm => hp (hsub.subset hm), Function.update_self, ← filter_skip]
        exact hpath'
      · obtain ⟨hqp, hqxs⟩ := not_or.mp (mt List.mem_cons.mpr hq)
        rw [hout q fun hm => hqxs (hsub.subset hm), Function.update_of_ne hqp]

theorem fixChildren_eq {parent : Ptr} (hpath : Path B (L parent) xs) (hnd : xs.Nodup)
    (hlen : xs.length ≤ tree.fresh) :
    ∃ o B', fixChildren (tree.withLists L B) parent =
        .ok (tree.withLists (Function.update L parent o) B') ∧
      Path B' o (xs.filter fun p => !tree.expired p) ∧ ∀ p, p ∉ xs → B' p = B p := by
  have hsub := List.dropWhile_sublist (l := xs) tree.expired
  obtain ⟨B', hfix, hpath', hout⟩ := fixSiblings_eq
   
    (hpath.dropWhile tree.expired) (hnd.sublist hsub) head_dropWhile (hsub.length_le.trans hlen)
    (hsub.length_le.trans hlen)
  refine ⟨(xs.dropWhile tree.expired).head?, B', ?_, ?_,
    fun p hp => hout p fun hm => hp (hsub.subset hm)⟩
  · rw [← setLeftChild_withLists] at hfix
    change ((tree.withLists L B).skipExpired (L parent) >>= _) = _
    rw [skipExpired_eq hpath hlen]
    exact hfix
  · rw [← filter_skip]
    exact hpath'

/-- The nodes of `D` have lost the children without `K`, the others are as they were. -/
def Relinked (S : Shape) (addr : Adr → Ptr) (K : Adr → Bool) (D : List Adr)
    (L B : Ptr → Option Ptr) : Prop :=
  ∀ a, S.Has a → Path B (L (addr a))
    (((S.children a).filter fun i => a ∉ D ∨ K (a ++ [i])).map fun i => addr (a ++ [i]))

theorem Wired.relinked_nil (h : Wired tree S addr chains) :
    Relinked S addr K [] (fun p => (tree.node p).leftChild) fun p => (tree.node p).sibling := by
  intro a ha
  have hall : (S.children a).filter (fun i => a ∉ [] ∨ K (a ++ [i])) = S.children a :=
    List.filter_eq_self.mpr fun i _ => by simp
  rw [hall]
  exact h.children a ha

theorem Relinked.fix {D : List Adr} (hr : Relinked S addr K D L B) (h : Wired tree S addr chains)
    (hexp : ∀ a ∈ S.nodes, tree.expired (addr a) = !K a) (ha : S.Has a) :
    ∃ L' B', fixChildren (tree.withLists L B) (addr a) = .ok (tree.withLists L' B') ∧
      Relinked S addr K (a :: D) L' B' := by
  obtain ⟨hnd, hlen⟩ := h.children_nodup List.filter_sublist
  obtain ⟨o, B', hfix, hpath, hout⟩ := fixChildren_eq (hr a ha) hnd hlen
  refine ⟨_, B', hfix, fun b hb => ?_⟩
  by_cases hba : b = a
  · subst hba
    rw [Function.update_self]
    rw [List.filter_map, List.filter_filter] at hpath
    convert hpath using 2
    refine List.filter_congr fun i hi => ?_
    have hKi := hexp _ ((h.ok.child b i).mp hi)
    cases hk : K (b ++ [i]) <;> simp [hKi, hk]
  · rw [Function.update_of_ne fun he => hba (h.inj _ _ hb ha he)]
    have hother : (S.children b).filter (fun i => b ∉ a :: D ∨ K (b ++ [i])) =
        (S.children b).filter fun i => b ∉ D ∨ K (b ++ [i]) := by
      simp [hba]
    rw [hother]
    refine (hr b hb).congr fun p hp => hout p fun hm => ?_
    obtain ⟨i, hi, rfl⟩ := List.mem_map.mp hp
    obtain ⟨j, hj, heq⟩ := List.mem_map.mp hm
    have hai := h.ok.has_child (List.mem_of_mem_filter hj)
    have hbi := h.ok.has_child (List.mem_of_mem_filter hi)
    exact hba (List.append_inj_left' (h.inj _ _ hai hbi heq) rfl).symm

theorem Relinked.chain {D l : List Adr} (hr : Relinked S addr K D L B)
    (h : Wired tree S addr chains)
    (hexp : ∀ a ∈ S.nodes, tree.expired (addr a) = !K a) (hl : ∀ a ∈ l, a ∈ S.nodes) :
    ∃ L' B', (l.map addr).foldlM (fun (tree : Tree) parent =>
          if tree.expired parent then .ok tree else fixChildren tree parent) (tree.withLists L B) =
        .ok (tree.withLists L' B') ∧ Relinked S addr K ((l.filter K).reverse ++ D) L' B' := by
  induction l generalizing D L B with
  | nil => exact ⟨L, B, rfl, hr⟩
  | cons a l ih =>
    obtain ⟨ha, hl⟩ := List.forall_mem_cons.mp hl
    have hnow : (tree.withLists L B).expired (addr a) = !K a := hexp a ha
    rw [List.map_cons, List.foldlM_cons, hnow]
    cases hk : K a with
    | false =>
      rw [List.filter_cons_of_neg (by rw [hk]; exact Bool.false_ne_true)]
      exact ih hr hl
    | true =>
      obtain ⟨L₁, B₁, hfix, hr₁⟩ := hr.fix h hexp (S.has_node ha)
      obtain ⟨L', B', hfold, hr'⟩ := ih hr₁ hl
      refine ⟨L', B', ?_, ?_⟩
      · rw [← hfold]
        rw [hfix]
        rfl
      · rw [List.filter_cons_of_pos hk, List.reverse_cons, List.append_assoc]
        exact hr'

theorem Relinked.allChains {D : List Adr} (hr : Relinked S addr K D L B)
    (h : Wired tree S addr chains)
    (hexp : ∀ a ∈ S.nodes, tree.expired (addr a) = !K a) (l : List Nat) :
    ∃ L' B' D', l.foldlM (fun (tree : Tree) i => do
          let parents ← tree.chain i
          parents.foldlM (fun tree parent => if tree.expired parent then .ok tree
            else fixChildren tree parent) tree) (tree.withLists L B) = .ok (tree.withLists L' B') ∧
      Relinked S addr K D' L' B' ∧ ∀ a, a ∈ D' ↔ a ∈ D ∨ K a ∧ ∃ i ∈ l, a ∈ chains i := by
  induction l generalizing D L B with
  | nil => exact ⟨L, B, D, rfl, hr, by simp⟩
  | cons i l ih =>
    have hchain : (tree.withLists L B).chain i = .ok ((chains i).map addr) := h.chain_eq i
    obtain ⟨L₁, B₁, hfold₁, hr₁⟩ :=
      hr.chain h hexp fun a (ha : a ∈ chains i) => h.listed i a ha
    obtain ⟨L', B', D', hfold, hr', hD⟩ := ih hr₁
    refine ⟨L', B', D', ?_, hr', fun a => ?_⟩
    · rw [List.foldlM_cons, hchain, ← hfold]
      change (((chains i).map addr).foldlM _ (tree.withLists L B) >>= _) = _
      rw [hfold₁]
      rfl
    · rw [hD]
      simp only [List.mem_append, List.mem_reverse, List.mem_filter, List.mem_cons,
        exists_eq_or_imp]
      tauto

end Lists

/-! ## Chains -/

def Node.noHeader (n : Node) : Node := { n with nextHeader := none, prevHeader := none }

section Unlink

variable (tree : Tree) (i : Nat) (node p : Ptr)

theorem unlink_node : (tree.unlink i node).node p =
    { tree.node p with
      nextHeader := if (tree.node node).prevHeader = some p then (tree.node node).nextHeader
        else (tree.node p).nextHeader
      prevHeader := if (tree.node node).nextHeader = some p then (tree.node node).prevHeader
        else (tree.node p).prevHeader } := by
  cases hprev : (tree.node node).prevHeader <;> cases hnext : (tree.node node).nextHeader <;>
    simp [Tree.unlink, hprev, hnext, setNode_node, eq_comm] <;> split_ifs <;> rfl

theorem unlink_header : (tree.unlink i node).header =
    if (tree.node node).prevHeader = none then
      Function.update tree.header i (tree.node node).nextHeader else tree.header := by
  cases hprev : (tree.node node).prevHeader <;> cases hnext : (tree.node node).nextHeader <;>
    simp [Tree.unlink, hprev, hnext]

@[simp] theorem unlink_fresh : (tree.unlink i node).fresh = tree.fresh := by
  cases hprev : (tree.node node).prevHeader <;> cases hnext : (tree.node node).nextHeader <;>
    simp [Tree.unlink, hprev, hnext]

@[simp] theorem unlink_maxItems : (tree.unlink i node).maxItems = tree.maxItems := by
  cases hprev : (tree.node node).prevHeader <;> cases hnext : (tree.node node).nextHeader <;>
    simp [Tree.unlink, hprev, hnext]

@[simp] theorem unlink_totalNodes : (tree.unlink i node).totalNodes = tree.totalNodes - 1 := by
  cases hprev : (tree.node node).prevHeader <;> cases hnext : (tree.node node).nextHeader <;>
    simp [Tree.unlink, hprev, hnext]

@[simp] theorem unlink_redundancy : (tree.unlink i node).redundancy =
    Function.update tree.redundancy i (tree.redundancy i - 1) := by
  cases hprev : (tree.node node).prevHeader <;> cases hnext : (tree.node node).nextHeader <;>
    simp [Tree.unlink, hprev, hnext]

@[simp] theorem unlink_single : (tree.unlink i node).singleSupport =
    Function.update tree.singleSupport i
      (tree.singleSupport i - (tree.node node).support) := by
  cases hprev : (tree.node node).prevHeader <;> cases hnext : (tree.node node).nextHeader <;>
    simp [Tree.unlink, hprev, hnext]

theorem unlink_noHeader : ((tree.unlink i node).node p).noHeader = (tree.node p).noHeader := by
  rw [unlink_node]
  rfl

theorem noHeader_flag {n m : Node} (h : n.noHeader = m.noHeader) : n.flag = m.flag := by
  have hflag := congrArg Node.flag h
  exact hflag

theorem noHeader_support {n m : Node} (h : n.noHeader = m.noHeader) : n.support = m.support := by
  have hsupport := congrArg Node.support h
  exact hsupport

end Unlink

def Tree.supports (tree : Tree) (l : List Ptr) : BitVec 32 :=
  (l.map fun p => (tree.node p).support).sum

theorem Tree.supports_cons (tree : Tree) (p : Ptr) (l : List Ptr) :
    tree.supports (p :: l) = (tree.node p).support + tree.supports l := by
  rfl

theorem supports_congr (h : ∀ p, (tree'.node p).noHeader = (tree.node p).noHeader) (l : List Ptr) :
    tree'.supports l = tree.supports l :=
  congrArg List.sum (List.map_congr_left fun p _ => noHeader_support (h p))


def Tree.IsChain (tree : Tree) (i : Nat) (l : List Ptr) : Prop :=
  tree.header i = first some l none ∧
    Seg (fun p => (tree.node p).nextHeader) (fun p => (tree.node p).prevHeader) some none l none

/-- `deleted` of the nodes `l` have left the chain of item `i`. -/
structure Unlinked (i : Nat) (tree tree' : Tree) (l : List Ptr) (deleted : Nat) : Prop where
  others : ∀ j, j ≠ i → tree'.header j = tree.header j ∧ tree'.redundancy j = tree.redundancy j
  outside : ∀ p, p ∉ l → tree'.node p = tree.node p
  noHeader : ∀ p, (tree'.node p).noHeader = (tree.node p).noHeader
  redundancy : tree'.redundancy i = tree.redundancy i - deleted
  total : tree'.totalNodes = tree.totalNodes - deleted
  fresh : tree'.fresh = tree.fresh
  maxItems : tree'.maxItems = tree.maxItems

theorem Unlinked.refl (i : Nat) (tree : Tree) (l : List Ptr) : Unlinked i tree tree l 0 :=
  ⟨fun _ _ => ⟨rfl, rfl⟩, fun _ _ => rfl, fun _ => rfl, (Int.sub_zero _).symm,
    (Int.sub_zero _).symm, rfl, rfl⟩

theorem Unlinked.expired {l : List Ptr} {d : Nat} (h : Unlinked i tree tree' l d) :
    tree'.expired = tree.expired := by
  funext p
  rw [Tree.expired, Tree.expired, noHeader_flag (h.noHeader p)]

theorem Unlinked.trans {tree'' : Tree} {l l' : List Ptr} {d d' : Nat}
    (h : Unlinked i tree tree' l d) (h' : Unlinked i tree' tree'' l' d') (hl : l' ⊆ l) :
    Unlinked i tree tree'' l (d' + d) := by
  refine ⟨fun j hj => ?_, fun p hp => ?_, fun p => ?_, ?_, ?_, ?_, ?_⟩
  · exact ⟨(h'.others j hj).1.trans (h.others j hj).1, (h'.others j hj).2.trans (h.others j hj).2⟩
  · exact (h'.outside p fun hm => hp (hl hm)).trans (h.outside p hp)
  · exact (h'.noHeader p).trans (h.noHeader p)
  · rw [h'.redundancy, h.redundancy]
    omega
  · rw [h'.total, h.total]
    omega
  · rw [h'.fresh, h.fresh]
  · rw [h'.maxItems, h.maxItems]

theorem IsChain.unlink {xs ys : List Ptr} {p : Ptr} (h : tree.IsChain i (xs ++ p :: ys))
    (hnd : (xs ++ p :: ys).Nodup) :
    (tree.unlink i p).IsChain i (xs ++ ys) ∧
      Unlinked i tree (tree.unlink i p) (xs ++ p :: ys) 1 ∧
      ((tree.unlink i p).node p).nextHeader = first some ys none := by
  obtain ⟨hhead, hseg⟩ := h
  obtain ⟨hprev, hnext⟩ := hseg.links
  refine ⟨⟨?_, ?_⟩, ⟨fun j hj => ⟨?_, ?_⟩, fun q hq => ?_, fun q => unlink_noHeader .., ?_,
    unlink_totalNodes .., unlink_fresh .., unlink_maxItems ..⟩, ?_⟩
  · rw [unlink_header, hprev, hnext]
    cases xs with
    | nil => rw [last_nil, if_pos rfl, Function.update_self, List.nil_append]
    | cons q xs =>
      rcases List.eq_nil_or_concat (q :: xs) with hnil | ⟨l, r, hl⟩
      · cases hnil
      · rw [hl, List.concat_eq_append, last_concat, if_neg (Option.some_ne_none _),
          ← List.concat_eq_append, ← hl, hhead]
        rfl
  · refine hseg.unlink hnd (Option.some_injective _) (fun q _ => Option.some_ne_none q)
      (fun q _ => Option.some_ne_none q) ?_ ?_ ?_ ?_
    · intro q _ hq
      rw [unlink_node, if_pos hq]
    · intro q _ hq
      rw [unlink_node, if_neg hq]
    · intro q _ hq
      rw [unlink_node]
      exact if_pos hq
    · intro q _ hq
      rw [unlink_node]
      exact if_neg hq
  · rw [unlink_header]
    split
    · rw [Function.update_of_ne hj]
    · rfl
  · rw [unlink_redundancy, Function.update_of_ne hj]
  · have hnotp : (tree.node p).prevHeader ≠ some q := by
      rw [hprev]
      have hcases : last some none xs = none ∨ ∃ c ∈ xs, last some none xs = some c :=
        last_eq_or_mem none xs
      rcases hcases with hl | ⟨c, hc, hl⟩
      · rw [hl]
        exact (Option.some_ne_none q).symm
      · rw [hl]
        rintro he
        cases he
        exact hq (List.mem_append_left _ hc)
    have hnotn : (tree.node p).nextHeader ≠ some q := by
      rw [hnext]
      have hcases : first some ys none = none ∨ ∃ c ∈ ys, first some ys none = some c :=
        first_eq_or_mem ys none
      rcases hcases with hf | ⟨c, hc, hf⟩
      · rw [hf]
        exact (Option.some_ne_none q).symm
      · rw [hf]
        rintro he
        cases he
        exact hq (List.mem_append_right _ (List.mem_cons_of_mem _ hc))
    rw [unlink_node, if_neg hnotp, if_neg hnotn]
  · rw [unlink_redundancy, Function.update_self]
    rfl
  · rw [unlink_node]
    rw [ite_self, hnext]

theorem unlinkExpired_eq {xs ys : List Ptr} {fuel : Nat} (h : tree.IsChain i (xs ++ ys))
    (hnd : (xs ++ ys).Nodup) (hfuel : ys.length ≤ fuel) :
    ∃ tree', unlinkExpired i fuel tree (first some ys none) =
        .ok (tree', (ys.filter tree.expired).length) ∧
      tree'.IsChain i (xs ++ ys.filter fun p => !tree.expired p) ∧
      Unlinked i tree tree' (xs ++ ys) (ys.filter tree.expired).length ∧
      tree'.singleSupport = Function.update tree.singleSupport i
        (tree.singleSupport i - tree.supports (ys.filter tree.expired)) := by
  induction ys generalizing tree xs fuel with
  | nil =>
    refine ⟨tree, ?_, h, .refl i tree _, ?_⟩
    · cases fuel <;> rfl
    · have hzero : tree.singleSupport i - 0 = tree.singleSupport i := sub_zero _
      exact (Function.update_eq_self_iff.mpr hzero).symm
  | cons p ys ih =>
    cases fuel with
    | zero => cases hfuel
    | succ fuel =>
      have hfuel := Nat.le_of_succ_le_succ hfuel
      rw [first_cons, unlinkExpired]
      cases hp : tree.expired p with
      | true =>
        obtain ⟨hchain, hone, hnext⟩ := IsChain.unlink h hnd
        have hsub : (xs ++ ys).Sublist (xs ++ p :: ys) :=
          (List.sublist_cons_self p ys).append_left xs
        obtain ⟨tree', hrun, hchain', hmany, hsingle⟩ := ih hchain (hnd.sublist hsub) hfuel
        rw [hone.expired] at hrun hchain' hmany hsingle
        refine ⟨tree', ?_, ?_, ?_, ?_⟩
        · simp only [hnext]
          rw [hrun, List.filter_cons_of_pos hp]
          rfl
        · rw [List.filter_cons_of_neg (by simp [hp])]
          exact hchain'
        · rw [List.filter_cons_of_pos hp]
          exact hone.trans hmany hsub.subset
        · rw [hsingle, supports_congr hone.noHeader, unlink_single, Function.update_idem,
            Function.update_self, List.filter_cons_of_pos hp, Tree.supports_cons, sub_sub]
      | false =>
        have happ : xs ++ [p] ++ ys = xs ++ p :: ys := by rw [List.append_assoc]; rfl
        obtain ⟨-, hnext⟩ := h.2.links
        have hhere : tree.IsChain i (xs ++ [p] ++ ys) := happ ▸ h
        obtain ⟨tree', hrun, hchain', hmany, hsingle⟩ := ih hhere (happ ▸ hnd) hfuel
        refine ⟨tree', ?_, ?_, ?_, ?_⟩
        · rw [if_neg Bool.false_ne_true, hnext, hrun, List.filter_cons_of_neg (by simp [hp])]
        · rw [List.filter_cons_of_pos (by simp [hp])]
          rwa [List.append_assoc] at hchain'
        · rw [List.filter_cons_of_neg (by simp [hp])]
          exact happ ▸ hmany
        · rw [List.filter_cons_of_neg (by simp [hp])]
          exact hsingle

theorem IsChain.congr {l : List Ptr} (h : tree.IsChain i l)
    (hheader : tree'.header i = tree.header i) (hnode : ∀ p ∈ l, tree'.node p = tree.node p) :
    tree'.IsChain i l := by
  refine ⟨hheader.trans h.1, h.2.congr (fun p hp => ?_) fun p hp => ?_⟩
  · rw [hnode p hp]
  · rw [hnode p hp]

/-- The nodes without `K` have left the chains of `l`. -/
structure Swept (chains : Nat → List Adr) (addr : Adr → Ptr) (K : Adr → Bool) (l : List Nat)
    (tree tree' : Tree) : Prop where
  isChain : ∀ i ∈ l, tree'.IsChain i (((chains i).filter K).map addr)
  redundancy : ∀ i ∈ l,
    tree'.redundancy i = tree.redundancy i - ((chains i).filter fun a => !K a).length
  single : ∀ i ∈ l, tree'.singleSupport i =
    tree.singleSupport i - tree.supports (((chains i).filter fun a => !K a).map addr)
  others : ∀ j, j ∉ l → tree'.header j = tree.header j ∧ tree'.redundancy j = tree.redundancy j ∧
    tree'.singleSupport j = tree.singleSupport j
  outside : ∀ p, (∀ i ∈ l, p ∉ (chains i).map addr) → tree'.node p = tree.node p
  noHeader : ∀ p, (tree'.node p).noHeader = (tree.node p).noHeader
  total : tree'.totalNodes = tree.totalNodes - ((l.flatMap chains).filter fun a => !K a).length
  fresh : tree'.fresh = tree.fresh
  maxItems : tree'.maxItems = tree.maxItems

theorem Wired.sweep_chain (h : Wired tree S addr chains) {t : Tree}
    (hchain : t.IsChain i ((chains i).map addr)) (hfresh : t.fresh = tree.fresh)
    (hexp : ∀ a ∈ S.nodes, t.expired (addr a) = !K a) :
    ∃ t', unlinkExpired i t.fresh t (t.header i) =
        .ok (t', ((chains i).filter fun a => !K a).length) ∧
      t'.IsChain i (((chains i).filter K).map addr) ∧
      Unlinked i t t' ((chains i).map addr) ((chains i).filter fun a => !K a).length ∧
      t'.singleSupport = Function.update t.singleSupport i
        (t.singleSupport i - t.supports (((chains i).filter fun a => !K a).map addr)) := by
  have hhas : ∀ a ∈ chains i, S.Has a := fun a ha => h.has ha
  have hle := h.map_length hhas (h.once i)
  rw [← hfresh] at hle
  have hwhole : t.IsChain i ([] ++ (chains i).map addr) := hchain
  obtain ⟨t', hrun, hchain', hun, hsingle⟩ :=
    unlinkExpired_eq hwhole (h.map_nodup hhas (h.once i)) hle
  have hgone : ((chains i).map addr).filter t.expired =
      ((chains i).filter fun a => !K a).map addr := by
    rw [List.filter_map]
    exact congrArg _ (List.filter_congr fun a ha => hexp a (h.listed i a ha))
  have hstay : ((chains i).map addr).filter (fun p => !t.expired p) =
      ((chains i).filter K).map addr := by
    rw [List.filter_map]
    refine congrArg _ (List.filter_congr fun a ha => ?_)
    rw [Function.comp_apply, hexp a (h.listed i a ha), Bool.not_not]
  rw [hgone, List.length_map] at hrun hun
  rw [hgone] at hsingle
  rw [hstay] at hchain'
  exact ⟨t', hchain.1 ▸ hrun, hchain', hun, hsingle⟩

theorem Wired.sweep (h : Wired tree S addr chains) {l : List Nat} (hl : l.Nodup) {t : Tree}
    (hchains : ∀ i ∈ l, t.IsChain i ((chains i).map addr)) (hfresh : t.fresh = tree.fresh)
    (hexp : ∀ a ∈ S.nodes, t.expired (addr a) = !K a) (n : Nat) :
    ∃ t', l.foldlM (fun (s : Tree × Nat) i => do
          let (tree, deleted) ← unlinkExpired i s.1.fresh s.1 (s.1.header i)
          return (tree, s.2 + deleted)) (t, n) =
        .ok (t', n + ((l.flatMap chains).filter fun a => !K a).length) ∧
      Swept chains addr K l t t' := by
  induction l generalizing t n with
  | nil =>
    exact ⟨t, rfl, by simp, by simp, by simp, fun _ _ => ⟨rfl, rfl, rfl⟩, fun _ _ => rfl,
      fun _ => rfl, (Int.sub_zero _).symm, rfl, rfl⟩
  | cons i l ih =>
    obtain ⟨hi, hl⟩ := List.nodup_cons.mp hl
    have hne : ∀ {j}, j ∈ l → j ≠ i := fun hj he => hi (he ▸ hj)
    obtain ⟨t₁, hrun, hchain, hun, hsingle⟩ :=
      h.sweep_chain (hchains i List.mem_cons_self) hfresh hexp
    have hchains₁ : ∀ j ∈ l, t₁.IsChain j ((chains j).map addr) := by
      intro j hj
      refine IsChain.congr (hchains j (List.mem_cons_of_mem _ hj)) (hun.others j (hne hj)).1 ?_
      exact fun p hp => hun.outside p (h.chains_disjoint (hne hj) hp)
    have hexp₁ : ∀ a ∈ S.nodes, t₁.expired (addr a) = !K a := by
      rw [hun.expired]
      exact hexp
    obtain ⟨t', hfold, hs⟩ := ih hl hchains₁ (hun.fresh.trans hfresh) hexp₁
      (n + ((chains i).filter fun a => !K a).length)
    have hlen : (((i :: l).flatMap chains).filter fun a => !K a).length =
        ((chains i).filter fun a => !K a).length +
          ((l.flatMap chains).filter fun a => !K a).length := by
      rw [List.flatMap_cons, List.filter_append, List.length_append]
    obtain ⟨hheader, hred, hsupport⟩ := hs.others i hi
    refine ⟨t', ?_, ?_, ?_, ?_, ?_, ?_, ?_, ?_, ?_, ?_⟩
    · rw [List.foldlM_cons, hlen, ← Nat.add_assoc, ← hfold]
      rw [hrun]
      rfl
    · refine List.forall_mem_cons.mpr ⟨IsChain.congr hchain hheader fun p hp => ?_, hs.isChain⟩
      refine hs.outside p fun j hj hm => h.chains_disjoint (hne hj) hm ?_
      exact (List.filter_sublist.map addr).subset hp
    · refine List.forall_mem_cons.mpr ⟨?_, fun j hj => ?_⟩
      · rw [hred, hun.redundancy]
      · rw [hs.redundancy j hj, (hun.others j (hne hj)).2]
    · refine List.forall_mem_cons.mpr ⟨?_, fun j hj => ?_⟩
      · rw [hsupport, hsingle, Function.update_self]
      · rw [hs.single j hj, hsingle, Function.update_of_ne (hne hj),
          supports_congr hun.noHeader]
    · intro j hj
      obtain ⟨hji, hjl⟩ := not_or.mp (mt List.mem_cons.mpr hj)
      obtain ⟨h₁, h₂, h₃⟩ := hs.others j hjl
      obtain ⟨h₄, h₅⟩ := hun.others j hji
      refine ⟨h₁.trans h₄, h₂.trans h₅, h₃.trans ?_⟩
      rw [hsingle, Function.update_of_ne hji]
    · intro p hp
      obtain ⟨hpi, hpl⟩ := List.forall_mem_cons.mp hp
      exact (hs.outside p hpl).trans (hun.outside p hpi)
    · exact fun p => (hs.noHeader p).trans (hun.noHeader p)
    · rw [hs.total, hun.total]
      omega
    · exact hs.fresh.trans hun.fresh
    · exact hs.maxItems.trans hun.maxItems

/-! ## `PruneTree` -/

theorem decide_expired {flag : Flag} {k : Bool} (h : flag = .expired ↔ k = false) :
    decide (flag = .expired) = !k := by
  cases k <;> simp [h]

theorem Wired.relink (h : Wired tree S addr chains)
    (hall : ∀ a ∈ S.nodes, ∃ i ∈ tree.items, a ∈ chains i) (hflag : Unmarked tree S addr) (w : Nat)
    (hK : ∀ a ∈ S.nodes, K a = decide (w ≤ (tree.node (addr a)).endId.toNat)) :
    ∃ F L B, markExpired tree w = .ok (tree.withFlags F) ∧
      relinkChildren (tree.withFlags F) = .ok ((tree.withFlags F).withLists L B) ∧
      (∀ a ∈ S.nodes, (F (addr a) = .expired ↔ K a = false)) ∧
      ∀ a, S.Has a → a = [] ∨ K a → Path B (L (addr a))
        (((S.children a).filter fun i => K (a ++ [i])).map fun i => addr (a ++ [i])) := by
  obtain ⟨F, hmark, hF⟩ := h.mark hall hflag w hK
  have hwired : Wired (tree.withFlags F) S addr chains :=
    ⟨h.ok, h.root, h.inj, h.fresh, h.parent, h.children, h.listed, h.once, h.disjoint, h.header,
      h.chain, h.redundancy, h.total⟩
  have hexp : ∀ a ∈ S.nodes, (tree.withFlags F).expired (addr a) = !K a :=
    fun a ha => decide_expired (hF a ha)
  obtain ⟨L₁, B₁, D, hfold, hr, hD⟩ :=
    (hwired.relinked_nil).allChains hwired hexp (tree.withFlags F).items
  obtain ⟨L, B, hfix, hr'⟩ := hr.fix hwired hexp S.has_root
  refine ⟨F, L, B, hmark, ?_, hF, fun a ha hka => ?_⟩
  · rw [withLists_self] at hfold
    rw [hwired.root] at hfix
    rw [relinkChildren, hfold]
    exact hfix
  · have hmem : a ∈ [] :: D := by
      rcases hka with rfl | hk
      · exact List.mem_cons_self
      · rcases List.mem_cons.mp ha with rfl | hm
        · exact List.mem_cons_self
        · exact List.mem_cons_of_mem _ ((hD a).mpr (.inr ⟨hk, hall a hm⟩))
    have hpath := hr' a ha
    have hfilter : (S.children a).filter (fun i => a ∉ [] :: D ∨ K (a ++ [i])) =
        (S.children a).filter fun i => K (a ++ [i]) := by
      simp [hmem]
    rwa [hfilter] at hpath

/-- All of a node that `PruneTree` does not set. -/
def Node.kept (n : Node) : Node :=
  { n with
    flag := .nil
    sibling := none
    leftChild := none
    nextHeader := none
    prevHeader := none }

theorem kept_fields {n m : Node} (h : n.kept = m.kept) :
    n.itemNo = m.itemNo ∧ n.parent = m.parent ∧ n.stamp = m.stamp ∧
      n.returnFreqAdr = m.returnFreqAdr := by
  have hitem := congrArg Node.itemNo h
  have hparent := congrArg Node.parent h
  have hstamp := congrArg Node.stamp h
  have hreturn := congrArg Node.returnFreqAdr h
  exact ⟨hitem, hparent, hstamp, hreturn⟩

/-- `tree'` has the nodes of `tree` with `K` and nothing else has changed. -/
structure Pruned (tree tree' : Tree) (S : Shape) (addr : Adr → Ptr) (chains : Nat → List Adr)
    (K : Adr → Bool) : Prop where
  wired : Wired tree' (S.filter K) addr fun i => (chains i).filter K
  kept : ∀ p, (tree'.node p).kept = (tree.node p).kept
  unmarked : Unmarked tree' (S.filter K) addr
  single : ∀ i, tree'.singleSupport i =
    tree.singleSupport i - tree.supports (((chains i).filter fun a => !K a).map addr)
  maxItems : tree'.maxItems = tree.maxItems

theorem Wired.prune (h : Wired tree S addr chains)
    (hall : ∀ a ∈ S.nodes, ∃ i ∈ tree.items, a ∈ chains i) (hflag : Unmarked tree S addr) (w : Nat)
    (hK : ∀ a ∈ S.nodes, K a = decide (w ≤ (tree.node (addr a)).endId.toNat))
    (hclosed : S.Closed K) :
    ∃ tree', pruneTree tree w = .ok (tree', (S.nodes.filter fun a => !K a).length) ∧
      Pruned tree tree' S addr chains K := by
  obtain ⟨F, L, B, hmark, hrelink, hF, hpath⟩ := h.relink hall hflag w hK
  have hexp : ∀ a ∈ S.nodes, ((tree.withFlags F).withLists L B).expired (addr a) = !K a :=
    fun a ha => decide_expired (hF a ha)
  have hchains : ∀ i ∈ tree.items,
      ((tree.withFlags F).withLists L B).IsChain i ((chains i).map addr) :=
    fun i _ => ⟨h.header i, h.chain i⟩
  have hnd : tree.items.Nodup := List.nodup_reverse.mpr List.nodup_range
  obtain ⟨t', hfold, hs⟩ := h.sweep hnd hchains rfl hexp 0
  have hcount := ((h.chains_perm hall).filter fun a => !K a).length_eq
  rw [Nat.zero_add, hcount] at hfold
  have hnode : ∀ p, (t'.node p).noHeader =
      (((tree.withFlags F).withLists L B).node p).noHeader := hs.noHeader
  have hkept : ∀ p, (t'.node p).kept = (tree.node p).kept := fun p => by
    have heq := congrArg Node.kept (hnode p)
    exact heq
  have hparent : ∀ p, (t'.node p).parent = (tree.node p).parent := fun p =>
    (kept_fields (hkept p)).2.1
  have hchild : ∀ p, (t'.node p).leftChild = L p := fun p => by
    have heq := congrArg Node.leftChild (hnode p)
    exact heq
  have hsibling : ∀ p, (t'.node p).sibling = B p := fun p => by
    have heq := congrArg Node.sibling (hnode p)
    exact heq
  have hin : ∀ {a}, a ∈ (S.filter K).nodes → a ∈ S.nodes ∧ K a := List.mem_filter.mp
  -- an item beyond the header table has no chain at all
  have hbeyond : ∀ i, i ∉ tree.items → chains i = [] := by
    intro i hi
    refine List.eq_nil_iff_forall_not_mem.mpr fun a ha => hi ?_
    obtain ⟨j, hj, haj⟩ := hall a (h.listed i a ha)
    exact h.disjoint j i a haj ha ▸ hj
  refine ⟨t', ?_, ⟨S.filter_ok h.ok hclosed, h.root,
    fun a b ha hb => h.inj a b (Shape.has_filter.mp ha).1 (Shape.has_filter.mp hb).1,
    fun a ha => hs.fresh ▸ h.fresh a (Shape.has_filter.mp ha).1,
    fun a i hm => (hparent _).trans (h.parent a i (hin hm).1), fun a ha => ?_, fun i a ha => ?_,
    fun i => (h.once i).filter _, fun i j a hi hj => ?_, fun i => ?_, fun i => ?_, fun i => ?_, ?_⟩,
    hkept, fun a hm => ?_, fun i => ?_, hs.maxItems⟩
  · rw [pruneTree, hmark]
    change (relinkChildren (tree.withFlags F) >>= _) = _
    rw [hrelink]
    exact hfold
  · obtain ⟨ha, hka⟩ := Shape.has_filter.mp ha
    rw [Shape.children_filter hka, hchild, funext hsibling]
    exact hpath a ha hka
  · obtain ⟨ha, hk⟩ := List.mem_filter.mp ha
    exact List.mem_filter.mpr ⟨h.listed i a ha, hk⟩
  · exact h.disjoint i j a (List.mem_of_mem_filter hi) (List.mem_of_mem_filter hj)
  · by_cases hi : i ∈ tree.items
    · exact (hs.isChain i hi).1
    · have hheader := h.header i
      rw [hbeyond i hi] at hheader ⊢
      exact (hs.others i hi).1.trans hheader
  · by_cases hi : i ∈ tree.items
    · exact (hs.isChain i hi).2
    · rw [hbeyond i hi]
      trivial
  · have hlen := List.length_eq_length_filter_add (l := chains i) K
    by_cases hi : i ∈ tree.items
    · rw [hs.redundancy i hi]
      change tree.redundancy i - _ = _
      rw [h.redundancy]
      omega
    · rw [(hs.others i hi).2.1]
      change tree.redundancy i = _
      rw [h.redundancy, hbeyond i hi]
      rfl
  · have hlen := List.length_eq_length_filter_add (l := S.nodes) K
    rw [hs.total]
    change tree.totalNodes - _ = ((S.nodes.filter K).length : Int)
    rw [h.total]
    omega
  · obtain ⟨hm, hk⟩ := hin hm
    have hfl : (t'.node (addr a)).flag = F (addr a) := noHeader_flag (hnode (addr a))
    rw [hfl]
    exact fun he => by simp [(hF a hm).mp he] at hk
  · by_cases hi : i ∈ tree.items
    · exact hs.single i hi
    · rw [(hs.others i hi).2.2, hbeyond i hi]
      exact (sub_zero _).symm

theorem Patterns.prune (h : Patterns tree S addr ends)
    (hitems : ∀ b ∈ S.nodes, ∀ i ∈ b, i < S.maxItems)
    (hflag : Unmarked tree S addr) (w : Nat)
    (hK : ∀ a ∈ S.nodes, K a = decide (w ≤ (ends a).toNat)) (hclosed : S.Closed K) :
    ∃ tree', pruneTree tree w = .ok (tree', (S.nodes.filter fun a => !K a).length) ∧
      Patterns tree' (S.filter K) addr ends ∧
      Unmarked tree' (S.filter K) addr := by
  have hlinks := h.links
  obtain ⟨tree', hrun, hpruned⟩ := hlinks.wired.prune (fun a ha => hlinks.exists_header hitems ha)
    hflag w (fun a ha => (h.ends a ha).symm ▸ hK a ha) hclosed
  have hitem : ∀ p, (tree'.node p).itemNo = (tree.node p).itemNo := fun p =>
    (kept_fields (hpruned.kept p)).1
  have hwired : Wired tree' (S.filter K) addr (S.filter K).header := by
    have hchains : (S.filter K).header = fun i => (S.header i).filter K :=
      funext Shape.header_filter
    rw [hchains]
    exact hpruned.wired
  have hin : ∀ {a}, a ∈ (S.filter K).nodes → a ∈ S.nodes := fun ha => (List.mem_filter.mp ha).1
  refine ⟨tree', hrun, ⟨hwired.linked (hpruned.maxItems.trans hlinks.maxItems)
    (fun a i hm => hlinks.small a i (hin hm)) ((hitem _).trans hlinks.rootItem)
    ((kept_fields (hpruned.kept _)).2.1.trans hlinks.rootParent)
    fun a i hm => (hitem _).trans (hlinks.item a i (hin hm)), fun a => ?_,
    fun a hm => (congrArg Stamp.endId (kept_fields (hpruned.kept _)).2.2.1).trans
      (h.ends a (hin hm))⟩,
    hpruned.unmarked⟩
  by_cases hka : a = [] ∨ K a
  · rw [Shape.children_filter hka]
    exact (h.sorted a).filter _
  · have hnil : (S.filter K).children a = [] := if_neg hka
    rw [hnil]
    exact .nil

end StreamMill.Swim

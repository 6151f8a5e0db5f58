import StreamMill.Swim.Accurate
import StreamMill.Swim.Pattern

/-!
# StreamMill.Swim.Verify

`Verify` counts the patterns of a pattern tree in an FP-tree. For a node `u` of the pattern tree it
marks the nodes of the FP-tree that have the item of a child of `u`: `OK` if the pattern of `u` is
among the items above, else `FP_FAIL`. The invariant of its loops is that a mark below `u` is either
missing or right for the pattern of `u` (`Marked`).
-/

namespace StreamMill.Swim

open Lib
open FPTree (Trans Adr weightOf)

def Tree.setFlag (tree : Tree) (p : Ptr) (flag : Flag) : Tree :=
  tree.setNode p fun n => { n with flag := flag }

def Tree.count (tree : Tree) (p : Ptr) (support : BitVec 32) : Tree :=
  tree.setNode p fun n => { n with support := n.support + support }

/-- The chain from `header[i]` on. -/
def Tree.chainAt (tree : Tree) (i : Int) : Except Fault (List Ptr) :=
  if 0 ≤ i ∧ i < tree.maxItems then tree.chain i.toNat else .error .outside

/-- `while ((t->itemNo > u->itemNo) && (!t->flag)) t = t->parent` -/
def Tree.lowest (fptree : Tree) (u : BitVec 16) (t : Option Ptr) : Except Fault Ptr := do
  let found ← walk .endless
    (fun t => decide (u.toInt < (fptree.node t).itemNo.toInt) && (fptree.node t).flag = .nil)
    (fun t => (fptree.node t).parent) fptree.fresh t
  match found with
  | some t => return t
  | none => throw .outside

/-- One node of the chain of `child`. The trees are the FP-tree and the pattern tree. -/
def mark (u child : Ptr) (s : Tree × Tree) (node : Ptr) : Except Fault (Tree × Tree) :=
  let uItem := (s.2.node u).itemNo
  let support := (s.1.node node).support
  if uItem = -1 then .ok (s.1.setFlag node .ok, s.2.count child support)
  else do
    let t ← s.1.lowest uItem (s.1.node node).parent
    if (s.1.node t).itemNo.toInt < uItem.toInt then return (s.1.setFlag node .fail, s.2)
    else
      let flag := (s.1.node t).flag
      return (s.1.setFlag node flag, if flag = .ok then s.2.count child support else s.2)

/-- One child of `u`, with `rec` for the recursive call. -/
def verifyChild (minsupp : Int) (rec : Ptr → Tree × Tree → Except Fault (Tree × Tree)) (u : Ptr)
    (s : Tree × Tree) (child : Ptr) : Except Fault (Tree × Tree) := do
  let nodes ← s.1.chainAt (s.2.node child).itemNo.toInt
  let s ← nodes.foldlM (mark u child) s
  if minsupp ≤ (s.2.node child).support.toInt then rec child s else return s

/-- The marks of the chain of `child` are taken away. -/
def unmark (pat : Tree) (fptree : Tree) (child : Ptr) : Except Fault Tree := do
  let nodes ← fptree.chainAt (pat.node child).itemNo.toInt
  return nodes.foldl (fun fptree node => fptree.setFlag node .nil) fptree

/-- At the root of the pattern tree: `u->support = fptree->root.support`, and a mark at the root of
the FP-tree. -/
def enter (u : Ptr) (s : Tree × Tree) : Tree × Tree :=
  if (s.2.node u).itemNo = -1 then
    (s.1.setFlag root .fail, s.2.setNode u fun n => { n with support := (s.1.node root).support })
  else s

/-- `Verify`, to the given depth. -/
def verifyFrom (minsupp : Int) : Nat → Ptr → Tree × Tree → Except Fault (Tree × Tree)
  | 0, _, _ => .error .endless
  | depth + 1, u, s => do
    let children ← s.2.siblings u
    let s ← children.foldlM (verifyChild minsupp (verifyFrom minsupp depth) u) (enter u s)
    let fptree ← children.foldlM (unmark s.2) s.1
    return (fptree, s.2)

/-- `Verify(fptree, &patternTree->root, minsupp)`: the two trees afterwards. -/
def verify (fptree patternTree : Tree) (minsupp : Int) : Except Fault (Tree × Tree) :=
  verifyFrom minsupp patternTree.fresh root (fptree, patternTree)

def Tree.withFlags (tree : Tree) (F : Ptr → Flag) : Tree :=
  { tree with node := fun p => { tree.node p with flag := F p } }

def Tree.withSupports (tree : Tree) (C : Ptr → BitVec 32) : Tree :=
  { tree with node := fun p => { tree.node p with support := C p } }

section States

variable (tree : Tree) (F : Ptr → Flag) (C : Ptr → BitVec 32) (p : Ptr)

theorem withFlags_self : tree.withFlags (fun p => (tree.node p).flag) = tree := rfl

theorem setFlag_withFlags (flag : Flag) :
    (tree.withFlags F).setFlag p flag = tree.withFlags (Function.update F p flag) := by
  simp only [Tree.withFlags, Tree.setFlag, Tree.setNode, Tree.mk.injEq, true_and, and_true]
  funext q
  by_cases hq : q = p
  · subst hq
    simp
  · simp [hq]

theorem count_withSupports (support : BitVec 32) : (tree.withSupports C).count p support =
    tree.withSupports (Function.update C p (C p + support)) := by
  simp only [Tree.withSupports, Tree.count, Tree.setNode, Tree.mk.injEq, true_and, and_true]
  funext q
  by_cases hq : q = p
  · subst hq
    simp
  · simp [hq]

end States

def markOf (a b : Adr) : Flag := if ∀ x ∈ a, x ∈ b then .ok else .fail

def setAll (addr : Adr → Ptr) (F : Ptr → Flag) (l : List Adr) (v : Adr → Flag) : Ptr → Flag :=
  l.foldl (fun F b => Function.update F (addr b) (v b)) F

section SetAll

variable {addr : Adr → Ptr} {F : Ptr → Flag} {l l' : List Adr} {v : Adr → Flag}

theorem setAll_append : setAll addr F (l ++ l') v = setAll addr (setAll addr F l v) l' v :=
  List.foldl_append

theorem setAll_of_not_mem {p : Ptr} (h : p ∉ l.map addr) : setAll addr F l v p = F p := by
  induction l generalizing F with
  | nil => rfl
  | cons b l ih =>
    rw [List.map_cons, List.mem_cons, not_or] at h
    rw [setAll, List.foldl_cons, ← setAll, ih h.2, Function.update_of_ne h.1]

theorem setAll_of_mem {b : Adr} (hb : b ∈ l) (hinj : ∀ c ∈ l, addr c = addr b → c = b) :
    setAll addr F l v (addr b) = v b := by
  induction l using List.reverseRecOn with
  | nil => cases hb
  | append_singleton l c ih =>
    rw [setAll_append, setAll, List.foldl_cons, List.foldl_nil]
    by_cases hc : c = b
    · subst hc
      rw [Function.update_self]
    · have hne : addr b ≠ addr c := fun he => hc (hinj c (by simp) he.symm)
      rw [Function.update_of_ne hne]
      refine ih ?_ fun d hd => hinj d (List.mem_append_left _ hd)
      rcases List.mem_append.mp hb with hb | hb
      · exact hb
      · exact absurd (List.mem_singleton.mp hb).symm hc

end SetAll

/-- An FP-tree of the transactions `ts` and a pattern tree beside it. -/
structure Beside (fp : Tree) (T : FPTree.Tree) (addr : Adr → Ptr) (ts : List Trans) (pat : Tree)
    (P : Shape) (paddr : Adr → Ptr) : Prop where
  refines : Refines fp T addr
  represents : FPTree.Represents T ts
  increasing : ∀ t ∈ ts, t.items.Pairwise (· < ·)
  links : Linked pat P paddr
  sorted : ∀ a, (P.children a).Pairwise (· < ·)
  paths : ∀ a ∈ P.nodes, a.Pairwise (· < ·)
  table : ∀ a i, a ++ [i] ∈ P.nodes → i < fp.maxItems

variable {fp pat : Tree} {T : FPTree.Tree} {addr paddr : Adr → Ptr} {ts : List Trans} {P : Shape}
  {F : Ptr → Flag} {C : Ptr → BitVec 32} {a b c : Adr} {x : Nat} {minsupp : Int}

theorem itemNo_concat (a : Adr) (x : Nat) : FPTree.itemNo (a ++ [x]) = x := by
  rw [FPTree.itemNo, List.getLast?_concat]

theorem le_itemNo (h : a.Pairwise (· < ·)) {y : Nat} (hy : y ∈ a) :
    (y : Int) ≤ FPTree.itemNo a := by
  rcases List.eq_nil_or_concat a with rfl | ⟨b, x, rfl⟩
  · cases hy
  · rw [List.concat_eq_append] at h hy ⊢
    rw [itemNo_concat]
    rcases List.mem_append.mp hy with hy | hy
    · have hlt := (List.pairwise_append.mp h).2.2 y hy x List.mem_cons_self
      omega
    · rw [List.mem_singleton.mp hy]

theorem itemNo_mem (ha : a ≠ []) : ∃ x ∈ a, FPTree.itemNo a = x := by
  rcases List.eq_nil_or_concat a with rfl | ⟨b, x, rfl⟩
  · exact absurd rfl ha
  · rw [List.concat_eq_append]
    exact ⟨x, by simp, itemNo_concat b x⟩

theorem markOf_concat {y : Nat} (hy : y ∉ a) (b : Adr) : markOf a (b ++ [y]) = markOf a b := by
  have hiff : (∀ x ∈ a, x ∈ b ++ [y]) ↔ ∀ x ∈ a, x ∈ b := by
    refine forall₂_congr fun x hx => ?_
    have hne : x ≠ y := fun he => hy (he ▸ hx)
    simp [hne]
  simp only [markOf, hiff]

/-- A mark of an item from that of `a` on is right for `a`; those below may be missing. -/
structure Marked (T : FPTree.Tree) (addr : Adr → Ptr) (F : Ptr → Flag) (a : Adr) : Prop where
  own : ∀ b ∈ T.nodes, FPTree.itemNo b = FPTree.itemNo a → F (addr b) = markOf a b
  below : ∀ b ∈ T.nodes, FPTree.itemNo a < FPTree.itemNo b →
    F (addr b) = .nil ∨ F (addr b) = markOf a b

theorem Beside.node_increasing (h : Beside fp T addr ts pat P paddr) (hb : (shape T).Has b) :
    b.Pairwise (· < ·) := by
  rcases List.mem_cons.mp hb with rfl | hb
  · exact .nil
  · obtain ⟨-, t, ht, hp⟩ := (h.represents.mem b).mp hb
    exact (h.increasing t ht).sublist hp.sublist

/-- Climbing from `b` ends at a node that tells whether `a` is on the way to `b`. -/
theorem Beside.lowest_mark (h : Beside fp T addr ts pat P paddr) (ha : a ≠ [])
    (hinc : a.Pairwise (· < ·)) (hF : Marked T addr F a) {u : BitVec 16}
    (hu : u.toInt = FPTree.itemNo a) (hb : (shape T).Has b) :
    ∃ t, (fp.withFlags F).lowest u (some (addr b)) = .ok t ∧
      (if (fp.node t).itemNo.toInt < u.toInt then Flag.fail else F t) = markOf a b := by
  have hlinks := h.refines.links
  obtain ⟨m, hma, hm⟩ := itemNo_mem ha
  rw [hu, hm]
  have hwalk : ∀ fuel, b.length < fuel → ∃ t,
      walk Fault.endless (fun t => decide ((m : Int) < (fp.node t).itemNo.toInt) && F t = .nil)
        (fun t => (fp.node t).parent) fuel (some (addr b)) = .ok (some t) ∧
      (if (fp.node t).itemNo.toInt < m then Flag.fail else F t) = markOf a b := by
    induction b using List.reverseRecOn with
    | nil =>
      intro fuel hfuel
      obtain ⟨fuel, rfl⟩ : ∃ k, fuel = k + 1 := ⟨fuel - 1, by omega⟩
      have hitem := hlinks.itemNo_eq (shape T).has_root
      have hroot : FPTree.itemNo [] = -1 := rfl
      rw [hroot] at hitem
      refine ⟨addr [], ?_, ?_⟩
      · rw [walk, hitem]
        simp
      · rw [if_pos (by omega), markOf, if_neg]
        exact fun hall => absurd (hall m hma) List.not_mem_nil
    | append_singleton b y ih =>
      intro fuel hfuel
      obtain ⟨fuel, rfl⟩ : ∃ k, fuel = k + 1 := ⟨fuel - 1, by omega⟩
      rw [List.length_append, List.length_singleton] at hfuel
      have hm' : b ++ [y] ∈ T.nodes := by
        rcases List.mem_cons.mp hb with hnil | hm'
        · simp at hnil
        · exact hm'
      have hitem := hlinks.itemNo_eq hb
      rw [itemNo_concat] at hitem
      by_cases hskip : m < y ∧ F (addr (b ++ [y])) = .nil
      · have hy : y ∉ a := fun hya => by
          have hle := le_itemNo hinc hya
          omega
        obtain ⟨t, hwalk, ht⟩ := ih (hlinks.ok.closed b y hm') fuel (by omega)
        refine ⟨t, ?_, ht.trans (markOf_concat hy b).symm⟩
        rw [walk, hitem, hlinks.parent b y hm', hwalk]
        simp [hskip]
      · refine ⟨addr (b ++ [y]), ?_, ?_⟩
        · rw [walk, hitem, if_neg]
          simpa using hskip
        · rcases Nat.lt_trichotomy y m with hlt | heq | hgt
          · rw [if_pos (by omega), markOf, if_neg]
            intro hall
            have hle := le_itemNo (h.node_increasing hb) (hall m hma)
            rw [itemNo_concat] at hle
            omega
          · rw [if_neg (by omega)]
            exact hF.own _ hm' (by rw [itemNo_concat, hm, heq])
          · rw [if_neg (by omega)]
            have hlt : FPTree.itemNo a < FPTree.itemNo (b ++ [y]) := by
              rw [itemNo_concat]
              omega
            exact (hF.below _ hm' hlt).resolve_left fun hnil => hskip ⟨hgt, hnil⟩
  obtain ⟨t, hwalk, ht⟩ := hwalk fp.fresh (hlinks.depth hb)
  refine ⟨t, ?_, ht⟩
  have hsame : walk Fault.endless
      (fun t => decide (u.toInt < ((fp.withFlags F).node t).itemNo.toInt) &&
        ((fp.withFlags F).node t).flag = .nil) (fun t => ((fp.withFlags F).node t).parent)
      (fp.withFlags F).fresh (some (addr b)) = .ok (some t) := by
    rw [hu, hm]
    exact hwalk
  rw [Tree.lowest, hsame]
  rfl

theorem Beside.mark_eq (h : Beside fp T addr ts pat P paddr) (hax : a ++ [x] ∈ P.nodes)
    (hF : Marked T addr F a) (hb : b ++ [x] ∈ T.nodes) (child : Ptr) :
    mark (paddr a) child (fp.withFlags F, pat.withSupports C) (addr (b ++ [x])) =
      .ok (fp.withFlags (Function.update F (addr (b ++ [x])) (markOf a (b ++ [x]))),
        pat.withSupports (Function.update C child (C child + BitVec.ofNat 32
          (if ∀ y ∈ a, y ∈ b ++ [x] then (T.node (b ++ [x])).support else 0)))) := by
  have hlinks := h.refines.links
  have ha := h.links.ok.closed a x hax
  have hu : (pat.node (paddr a)).itemNo.toInt = FPTree.itemNo a := h.links.itemNo_eq ha
  have hsupport := h.refines.support (b ++ [x]) ((shape T).has_node hb)
  have hset := setFlag_withFlags fp F (addr (b ++ [x]))
  have hcount := count_withSupports pat C child
  have hnone : pat.withSupports (Function.update C child (C child + BitVec.ofNat 32 0)) =
      pat.withSupports C := by
    simp
  by_cases hnil : a = []
  · subst hnil
    have hroot : (pat.node (paddr [])).itemNo = -1 := by rw [h.links.root, h.links.rootItem]
    have hout : mark (paddr []) child (fp.withFlags F, pat.withSupports C) (addr (b ++ [x])) =
        .ok ((fp.withFlags F).setFlag (addr (b ++ [x])) .ok,
          (pat.withSupports C).count child (fp.node (addr (b ++ [x]))).support) := if_pos hroot
    rw [hout, hset, hcount, hsupport, markOf, if_pos (by simp), if_pos (by simp)]
  · have hinc := h.paths _ hax
    obtain ⟨hinc, -, hlt⟩ := List.pairwise_append.mp hinc
    have hx : x ∉ a := fun hm => Nat.lt_irrefl x (hlt x hm x List.mem_cons_self)
    have hne : (pat.node (paddr a)).itemNo ≠ -1 := by
      intro heq
      obtain ⟨m, -, hm⟩ := itemNo_mem hnil
      rw [heq] at hu
      have hneg : (-1 : BitVec 16).toInt = -1 := rfl
      omega
    obtain ⟨t, hlowest, ht⟩ :=
      h.lowest_mark hnil hinc hF hu (hlinks.ok.closed b x hb)
    rw [markOf_concat hx]
    have hparent : (fp.node (addr (b ++ [x]))).parent = some (addr b) := hlinks.parent b x hb
    have hmark : markOf a b = .ok ↔ ∀ y ∈ a, y ∈ b ++ [x] := by
      rw [← markOf_concat hx, markOf]
      split
      · next hall => exact ⟨fun _ => hall, fun _ => rfl⟩
      · next hall => exact ⟨fun heq => (by cases heq), fun hall' => absurd hall' hall⟩
    refine (if_neg hne).trans ?_
    change ((fp.withFlags F).lowest (pat.node (paddr a)).itemNo
      (fp.node (addr (b ++ [x]))).parent >>= _) = _
    rw [hparent, hlowest]
    by_cases hlt : (fp.node t).itemNo.toInt < (pat.node (paddr a)).itemNo.toInt
    · rw [if_pos hlt] at ht
      refine (if_pos hlt).trans ?_
      rw [← ht] at hmark ⊢
      rw [if_neg fun hall => absurd (hmark.mpr hall) (by simp), hnone]
      exact congrArg (fun fp => Except.ok (fp, pat.withSupports C)) (hset .fail)
    · rw [if_neg hlt] at ht
      refine (if_neg hlt).trans ?_
      have hflag : ((fp.withFlags F).node t).flag = markOf a b := ht
      simp only [hflag]
      rw [hset]
      by_cases hall : ∀ y ∈ a, y ∈ b ++ [x]
      · rw [if_pos (hmark.mpr hall), if_pos hall, hcount, ← hsupport]
        rfl
      · rw [if_neg fun heq => hall (hmark.mp heq), if_neg hall, hnone]
        rfl

theorem Marked.set (hF : Marked T addr F a) (hlinks : Linked fp (shape T) addr)
    (hb : b ∈ T.nodes) : Marked T addr (Function.update F (addr b) (markOf a b)) a := by
  have hother : ∀ c ∈ T.nodes, c ≠ b → Function.update F (addr b) (markOf a b) (addr c) =
      F (addr c) := fun c hc hne =>
    Function.update_of_ne (fun he => hne
      (hlinks.inj c b ((shape T).has_node hc) ((shape T).has_node hb) he)) _ _
  refine ⟨fun c hc heq => ?_, fun c hc hlt => ?_⟩
  · by_cases hcb : c = b
    · rw [hcb, Function.update_self]
    · rw [hother c hc hcb]
      exact hF.own c hc heq
  · by_cases hcb : c = b
    · rw [hcb, Function.update_self]
      exact .inr rfl
    · rw [hother c hc hcb]
      exact hF.below c hc hlt

/-- What the nodes `l` count for the pattern `a`. -/
def countOf (T : FPTree.Tree) (a : Adr) (l : List Adr) : Nat :=
  (l.map fun b => if ∀ y ∈ a, y ∈ b then (T.node b).support else 0).sum

theorem Beside.marks_eq (h : Beside fp T addr ts pat P paddr) (hax : a ++ [x] ∈ P.nodes)
    (hF : Marked T addr F a) {l : List Adr} (hl : ∀ b ∈ l, b ∈ (shape T).header x) (child : Ptr) :
    (l.map addr).foldlM (mark (paddr a) child) (fp.withFlags F, pat.withSupports C) =
      .ok (fp.withFlags (setAll addr F l (markOf a)),
        pat.withSupports
          (Function.update C child (C child + BitVec.ofNat 32 (countOf T a l)))) := by
  induction l generalizing F C with
  | nil => simp [setAll, countOf, pure, Except.pure]
  | cons b l ih =>
    obtain ⟨hb, hrest⟩ := List.forall_mem_cons.mp hl
    obtain ⟨hm, b, rfl⟩ := Shape.mem_header.mp hb
    rw [List.map_cons, List.foldlM_cons, h.mark_eq hax hF hm child]
    refine (ih (hF.set h.refines.links hm) hrest).trans ?_
    rw [Function.update_self, Function.update_idem, BitVec.add_assoc, ← BitVec.ofNat_add]
    rfl

theorem Beside.count_eq (h : Beside fp T addr ts pat P paddr)
    (hinc : (a ++ [x]).Pairwise (· < ·)) :
    countOf T a ((shape T).header x) = weightOf ts fun l => ∀ y ∈ a ++ [x], y ∈ l := by
  have hrep := h.represents
  have hnd : ((shape T).header x).Nodup := h.refines.links.ok.nodup.filter _
  obtain ⟨-, -, hlt⟩ := List.pairwise_append.mp hinc
  have hweight : ∀ b, (if ∀ y ∈ a, y ∈ b then (T.node b).support else 0) =
      weight Trans.support ts fun t => decide (b <+: t.items) && decide (∀ y ∈ a, y ∈ b) := by
    intro b
    by_cases hall : ∀ y ∈ a, y ∈ b
    · rw [if_pos hall, hrep.support, weightOf]
      simp [decide_eq_true hall, Bool.and_true]
    · rw [if_neg hall]
      refine (weight_zero fun t _ => ?_).symm
      rw [decide_eq_false hall, Bool.and_false]
  -- a transaction goes through at most one node of the chain
  have huniq : ∀ t ∈ ts, ∀ b ∈ (shape T).header x, ∀ c ∈ (shape T).header x,
      (decide (b <+: t.items) && decide (∀ y ∈ a, y ∈ b)) = true →
      (decide (c <+: t.items) && decide (∀ y ∈ a, y ∈ c)) = true → b = c := by
    intro t ht b hb c hc hbt hct
    rw [Bool.and_eq_true, decide_eq_true_iff] at hbt hct
    obtain ⟨-, b, rfl⟩ := Shape.mem_header.mp hb
    obtain ⟨-, c, rfl⟩ := Shape.mem_header.mp hc
    exact FPTree.prefix_unique ((h.increasing t ht).imp fun h => h.ne) hbt.1 hct.1
  have hfiber := weight_fiber (w := Trans.support)
    hnd huniq
  rw [countOf, List.map_congr_left fun b _ => hweight b, hfiber]
  refine weight_congr fun t ht => ?_
  rw [Bool.eq_iff_iff, List.any_eq_true, decide_eq_true_iff]
  constructor
  · rintro ⟨b, hb, hbt⟩
    rw [Bool.and_eq_true, decide_eq_true_iff, decide_eq_true_iff] at hbt
    obtain ⟨-, b, rfl⟩ := Shape.mem_header.mp hb
    intro y hy
    rcases List.mem_append.mp hy with hy | hy
    · exact hbt.1.subset (hbt.2 y hy)
    · rw [List.mem_singleton.mp hy]
      exact hbt.1.subset (by simp)
  · intro hall
    obtain ⟨l, r, hsplit⟩ := List.append_of_mem (hall x (by simp))
    have htinc := h.increasing t ht
    rw [hsplit] at htinc
    obtain ⟨-, hxr, hlr⟩ := List.pairwise_append.mp htinc
    have hp : l ++ [x] <+: t.items := ⟨r, by rw [hsplit, List.append_assoc]; rfl⟩
    refine ⟨l ++ [x], Shape.mem_header.mpr ⟨(hrep.mem _).mpr ⟨by simp, t, ht, hp⟩, l, rfl⟩, ?_⟩
    rw [Bool.and_eq_true, decide_eq_true_iff, decide_eq_true_iff]
    refine ⟨hp, fun y hy => ?_⟩
    have hyx := hlt y hy x List.mem_cons_self
    have hyt := hall y (List.mem_append_left _ hy)
    rw [hsplit] at hyt
    rcases List.mem_append.mp hyt with hyl | hyr
    · exact List.mem_append_left _ hyl
    · rcases List.mem_cons.mp hyr with rfl | hyr
      · omega
      · have hxy := (List.pairwise_cons.mp hxr).1 y hyr
        omega

end StreamMill.Swim

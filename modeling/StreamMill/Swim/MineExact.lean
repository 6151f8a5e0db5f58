import StreamMill.Swim.Mine
import StreamMill.Swim.Slides

/-!
# StreamMill.Swim.MineExact

What `Mine` puts into the pattern tree. Every conditional tree holds transactions that are alike to
what its suffix leaves of those in the first tree, so a run puts in the patterns of `Mined`.
-/

namespace StreamMill.Swim

open Lib
open FPTree (Trans Adr weightOf weightOf_cons Represents Increasing Alike OnePath Mined supportOf
  conditional above above_cons below nonempty itemCount Visited)

variable {tree : Tree} {T : FPTree.Tree} {S : Shape} {addr : Adr → Ptr} {a : Adr} {i n : Nat}
  {us : List Trans}

/-! ## The buffer -/

def encode (t : Trans) : List Int := (-(t.support : Int) - 1) :: t.items.map Int.ofNat

theorem readBack_encode (t : Trans) (us : List Trans) :
    readBack t (us.flatMap encode) = flush t ++ us.flatMap flush := by
  induction us generalizing t with
  | nil => exact (List.append_nil _).symm
  | cons u us ih =>
    have hneg : -(u.support : Int) - 1 < 0 := by omega
    have hsupport : (-(-(u.support : Int) - 1) - 1).toNat = u.support := by omega
    rw [List.flatMap_cons, encode, List.cons_append, readBack, if_pos hneg, hsupport,
      readBack_items, List.nil_append, ih, List.flatMap_cons]

theorem flatMap_flush (us : List Trans) : us.flatMap flush = nonempty us := by
  induction us with
  | nil => rfl
  | cons u us ih =>
    rw [List.flatMap_cons, ih, nonempty, nonempty, flush]
    by_cases hu : u.items = []
    · rw [if_pos hu, List.filter_cons_of_neg (by simp [hu])]
      rfl
    · rw [if_neg hu, List.filter_cons_of_pos (by simp [hu])]
      rfl

theorem kept_encode (minsupp : Int) (count : Nat → BitVec 32) (t : Trans) :
    (encode t).filter (kept minsupp count) =
      encode ⟨t.support, t.items.filter fun y => minsupp ≤ (count y).toInt⟩ := by
  have hmarker : kept minsupp count (-(t.support : Int) - 1) = true := by
    rw [kept, Bool.or_eq_true, decide_eq_true_eq]
    exact .inl (by omega)
  have hitem : kept minsupp count ∘ Int.ofNat = fun y => decide (minsupp ≤ (count y).toInt) := by
    rfl
  rw [encode, List.filter_cons_of_pos hmarker, List.filter_map, hitem, encode]

theorem kept_above (minsupp : Int) (count : Nat → BitVec 32) (as : List Adr) :
    ((above T (fun _ => true) as).flatMap encode).filter (kept minsupp count) =
      (above T (fun y => minsupp ≤ (count y).toInt) as).flatMap encode := by
  induction as with
  | nil => rfl
  | cons a as ih =>
    rw [above_cons, above_cons, List.flatMap_cons, List.flatMap_cons, List.filter_append,
      kept_encode, ih, List.filter_true]

theorem write_fst (target : Ptr) (nodes : List Ptr) (s : List Int × (Nat → BitVec 32)) :
    (nodes.foldl (tree.write target) s).1 = s.1 ++ nodes.map (tree.entry target) := by
  induction nodes generalizing s with
  | nil => exact (List.append_nil _).symm
  | cons p nodes ih =>
    rw [List.foldl_cons, ih, List.map_cons, Tree.write, Tree.entry]
    by_cases hp : 0 ≤ (tree.node p).itemNo.toInt
    · rw [if_pos hp, if_pos hp]
      exact List.append_assoc _ [_] _
    · rw [if_neg hp, if_neg hp]
      exact List.append_assoc _ [_] _

theorem Linked.write_snd (h : Linked tree S addr) (ha : S.Has a) (hnd : a.Nodup) (target : Ptr)
    (s : List Int × (Nat → BitVec 32)) (y : Nat) :
    ((a.inits.reverse.map addr).foldl (tree.write target) s).2 y =
      s.2 y + if y ∈ a then (tree.node target).support else 0 := by
  induction a using List.reverseRecOn generalizing s with
  | nil =>
    have hroot : ¬ 0 ≤ (tree.node (addr [])).itemNo.toInt := by
      rw [h.root, h.rootItem]
      decide
    simp [Tree.write, hroot]
  | append_singleton a i ih =>
    have hm := (List.mem_cons.mp ha).resolve_left (List.append_ne_nil_of_right_ne_nil a (by simp))
    have hitem := h.item_eq ((h.ok.child a i).mpr hm)
    have hinits : (a ++ [i]).inits.reverse = (a ++ [i]) :: a.inits.reverse := by
      simp [List.inits_append]
    obtain ⟨hnda, -, hi⟩ := List.nodup_append.mp hnd
    rw [hinits, List.map_cons, List.foldl_cons, ih (h.ok.closed a i hm) hnda, Tree.write, hitem,
      if_pos (Int.natCast_nonneg i), Int.toNat_natCast]
    dsimp only
    by_cases hy : y = i
    · subst hy
      have hnot : y ∉ a := fun hya => hi y hya y List.mem_cons_self rfl
      rw [Function.update_self, if_neg hnot, if_pos (by simp)]
      exact BitVec.add_zero _
    · simp [hy]

theorem Linked.writeAbove_eq (h : Linked tree S addr) {b : Adr} (hm : b ++ [i] ∈ S.nodes)
    (hnd : b.Nodup) (s : List Int × (Nat → BitVec 32)) :
    tree.writeAbove s (addr (b ++ [i])) =
      .ok (s.1 ++ ((b.map Int.ofNat).reverse ++
          [-(tree.node (addr (b ++ [i]))).support.toInt - 1]),
        fun y => s.2 y + if y ∈ b then (tree.node (addr (b ++ [i]))).support else 0) := by
  have hb : S.Has b := h.ok.closed b i hm
  have hvisits := h.up_eq hb
  rw [Tree.up] at hvisits
  rw [Tree.writeAbove, h.parent b i hm, hvisits]
  refine congrArg Except.ok (Prod.ext ?_ (funext fun y => ?_))
  · rw [← h.entries hb]
    exact write_fst _ _ _
  · exact h.write_snd hb hnd _ s y

theorem Refines.writeAbove_foldlM (h : Refines tree T addr)
    (hfit : ∀ a, (T.node a).support < 2 ^ 31) {as : List Adr}
    (has : ∀ a ∈ as, a ∈ T.nodes ∧ a.Nodup) (s : List Int × (Nat → BitVec 32)) :
    (as.map addr).foldlM tree.writeAbove s =
      (.ok (s.1 ++ ((above T (fun _ => true) as).map fun t => (encode t).reverse).flatten,
        fun y => s.2 y + BitVec.ofNat 32
          (weightOf (above T (fun _ => true) as) fun l => y ∈ l)) :
        Except Fault (List Int × (Nat → BitVec 32))) := by
  induction as generalizing s with
  | nil =>
    refine congrArg Except.ok (Prod.ext ?_ (funext fun y => ?_))
    · exact (List.append_nil _).symm
    · exact (BitVec.add_zero _).symm
  | cons a as ih =>
    obtain ⟨⟨hm, hnd⟩, has'⟩ := List.forall_mem_cons.mp has
    obtain ⟨b, j, rfl⟩ := (List.eq_nil_or_concat' a).resolve_left fun hnil => by
      subst hnil
      exact h.links.ok.root hm
    have hsupport := h.support _ ((shape T).has_node hm)
    have hint : (tree.node (addr (b ++ [j]))).support.toInt = (T.node (b ++ [j])).support := by
      rw [hsupport, toInt_weight (le_refl _) (hfit _)]
    rw [List.map_cons, List.foldlM_cons,
      h.links.writeAbove_eq hm (List.nodup_append.mp hnd).1 s]
    refine (ih has' _).trans ?_
    refine congrArg Except.ok (Prod.ext ?_ (funext fun y => ?_))
    · rw [above_cons, List.map_cons, List.flatten_cons, encode, List.reverse_cons,
        List.dropLast_concat, List.filter_true, hint, List.append_assoc]
    · dsimp only
      rw [above_cons, weightOf_cons, BitVec.ofNat_add,
        ← BitVec.add_assoc, hsupport]
      by_cases hy : y ∈ b <;> simp [hy]

/-- The paths fit in the buffer, and every item above the nodes gets its support together with
theirs. -/
theorem Refines.writeChain_eq (h : Refines tree T addr) (hrep : Represents T us)
    (hinc : Increasing us) (hfit : totalSupport us < 2 ^ 31) {maxLen : Int}
    (hlen : itemCount us ≤ maxLen) (i : Nat) :
    ∃ buf count, tree.writeChain maxLen i = .ok (buf, count) ∧
      buf.reverse = (above T (fun _ => true) (T.header i).reverse).flatMap encode ∧
      ∀ y < i, (count y).toInt = supportOf us [i, y] := by
  have hsupport : ∀ a, (T.node a).support < 2 ^ 31 := fun a =>
    (hrep.support a ▸ weightOf_le us _).trans_lt hfit
  have hheader : ∀ a ∈ T.header i, a ∈ T.nodes ∧ a.Nodup := by
    intro a ha
    obtain ⟨b, rfl, t, ht, hp⟩ := hrep.mem_header.mp ha
    exact ⟨List.mem_of_mem_filter ha, ((hinc t ht).nodup).sublist hp.sublist⟩
  have hrun := h.writeAbove_foldlM hsupport hheader ([], fun _ => 0)
  have hback : (((above T (fun _ => true) (T.header i)).map fun t =>
      (encode t).reverse).flatten).reverse =
        (above T (fun _ => true) (T.header i).reverse).flatMap encode := by
    rw [List.reverse_flatten, List.map_map, List.flatMap_def, above, above, List.map_reverse,
      List.map_reverse]
    congr 2
    refine List.map_congr_left fun t _ => ?_
    exact List.reverse_reverse _
  have hroom : (((above T (fun _ => true) (T.header i)).map fun t =>
      (encode t).reverse).flatten).length ≤ itemCount us := by
    refine le_trans (Nat.le_of_eq ?_) (hrep.header_length (x := i) hinc)
    rw [← List.length_reverse, hback, List.length_flatMap, above, List.map_map]
    congr 1
    refine List.map_congr_left fun a ha => ?_
    obtain ⟨b, rfl, -⟩ := hrep.mem_header.mp (List.mem_reverse.mp ha)
    simp [encode]
  have hcount : ∀ y < i, ((0 : BitVec 32) + BitVec.ofNat 32
      (weightOf (above T (fun _ => true) (T.header i)) fun l => y ∈ l)).toInt =
        supportOf us [i, y] := by
    intro y hy
    have hperm : weightOf (above T (fun _ => true) (T.header i)) (fun l => y ∈ l) =
        weightOf (above T (fun _ => true) (T.header i).reverse) fun l => y ∈ l :=
      weight_perm ((T.header i).reverse_perm.symm.map _)
    have hzero : ∀ x : BitVec 32, 0 + x = x := BitVec.zero_add
    rw [hzero, hperm, hrep.support_above hinc hy]
    exact toInt_weight (weightOf_le us _) hfit
  have hchain : tree.chain i = .ok ((T.header i).map addr) := h.links.chain_eq i
  refine ⟨_, _, ?_, hback, hcount⟩
  rw [Tree.writeChain, hchain]
  simp only [Bind.bind, Except.bind, hrun]
  exact if_neg (by rw [List.nil_append]; omega)

/-! ## The root -/

theorem descend_links {items rest : List Nat} {r : Option Ptr} {p p' : Ptr} {tree' : Tree} {s : Nat}
    (h : descend s r tree p items = .ok (tree', p', rest)) : tree'.links = tree.links := by
  induction items generalizing tree p with
  | nil =>
    cases h
    rfl
  | cons c items ih =>
    cases hfind : tree.findChild p c with
    | error f =>
      rw [descend, hfind] at h
      cases h
    | ok found =>
      cases found with
      | none =>
        rw [descend, hfind] at h
        cases h
        rfl
      | some node =>
        have hadd : (tree.addSupport node s).links = tree.links := setNode_links _ _ fun _ => rfl
        rw [descend_found hfind] at h
        refine (ih h).trans (Eq.trans ?_ hadd)
        by_cases hitems : items = []
        · have hset : ((tree.addSupport node s).setNode node fun n =>
              { n with returnFreqAdr := r }).links = (tree.addSupport node s).links :=
            setNode_links _ _ fun _ => rfl
          rw [if_pos hitems]
          exact hset
        · rw [if_neg hitems]
          rfl

theorem grow_sibling {items : List Nat} {r : Option Ptr} {p q : Ptr} {s : Nat}
    (hp : p < tree.fresh) (hq : q < tree.fresh) :
    ((grow s r tree p items).node q).sibling = (tree.node q).sibling := by
  induction items generalizing tree p with
  | nil => rfl
  | cons c items ih =>
    have hfresh := addNode_fresh tree p none c s 0 (if items = [] then r else none)
    have hlt : tree.fresh <
        (tree.addNode p none c s 0 (if items = [] then r else none)).fresh :=
      hfresh ▸ Nat.lt_succ_self tree.fresh
    rw [grow, ih hlt (hq.trans hlt), addNode_sibling_front _ _ _ _ _ _ _ (Nat.ne_of_lt hp),
      if_neg (Nat.ne_of_lt hq)]

theorem Refines.insertTrans_sibling (h : Refines tree T addr) {t : Trans} {tree' : Tree}
    {n : Nat} (hrun : insertTrans tree t = .ok (tree', n)) :
    (tree'.node root).sibling = (tree.node root).sibling := by
  have hroot := (shape T).has_root
  have hvisit := h.addSupport hroot t.support
  obtain ⟨tree₁, hdescend, h₁, hhas⟩ := descend_refines t.items none hvisit hroot
  rw [h.links.root] at hdescend
  rw [insertTrans, insertTransAdr, hdescend] at hrun
  cases hrun
  have hlinks : (tree₁.node root).links = (tree.node root).links :=
    congrFun (congrArg Tree.node ((descend_links hdescend).trans
      (setNode_links tree root fun _ => rfl))) root
  have hsibling := congrArg Node.sibling hlinks
  refine (grow_sibling (h₁.links.fresh _ hhas) ?_).trans hsibling
  exact h₁.links.root ▸ h₁.links.fresh [] (Shape.has_root _)

theorem Refines.insertAll_sibling (h : Refines tree T addr) {ts : List Trans} {tree' : Tree}
    (hsmall : ∀ t ∈ ts, ∀ c ∈ t.items, c < itemLimit) (hrun : insertAll tree ts = .ok tree') :
    (tree'.node root).sibling = (tree.node root).sibling := by
  induction ts generalizing tree T addr with
  | nil =>
    cases hrun
    rfl
  | cons t ts ih =>
    obtain ⟨ht, hsmall⟩ := List.forall_mem_cons.mp hsmall
    obtain ⟨tree₁, n, hinsert, hrun⟩ := insertAll_cons hrun
    obtain ⟨tree₂, addr₂, hinsert₂, h₂⟩ := insertTrans_refines h ht
    obtain ⟨rfl, -⟩ := Prod.mk.inj (Except.ok.inj (hinsert.symm.trans hinsert₂))
    rw [ih h₂ hsmall hrun]
    exact h.insertTrans_sibling hinsert

/-! ## Trees of transactions -/

/-- The tree was made from `us`, and the fields of its nodes are wide enough. -/
structure Holding (tree : Tree) (us : List Trans) : Prop where
  refines : ∃ T addr, Refines tree T addr ∧ Represents T us
  sibling : (tree.node root).sibling = none
  increasing : Increasing us
  items : ∀ t ∈ us, ∀ y ∈ t.items, y < tree.maxItems
  fit : totalSupport us < 2 ^ 31

theorem Cleared.insertAll_holding (h : Cleared tree) (hinc : Increasing us)
    (hitems : ∀ t ∈ us, ∀ y ∈ t.items, y < tree.maxItems)
    (hsmall : ∀ t ∈ us, ∀ y ∈ t.items, y < itemLimit) (hfit : totalSupport us < 2 ^ 31) :
    ∃ tree', insertAll tree us = .ok tree' ∧ Holding tree' us ∧ tree'.maxItems = tree.maxItems := by
  obtain ⟨tree', addr', hall, hrefines⟩ := insertAll_refines h.refines hsmall
  obtain ⟨hrep, -⟩ := FPTree.build_represents (FPTree.newTree_represents tree.maxItems)
    fun t ht => (hinc t ht).nodup
  have hmax := insertAll_maxItems hall
  have hnone : (tree.node root).sibling = none := by
    rcases h with ⟨maxItems, rfl⟩ | ⟨old, -, hempty⟩
    · rfl
    · obtain ⟨-, -, htree⟩ := bind_eq_ok hempty
      cases htree
      exact congrArg Node.sibling (Function.update_self root _ old.node)
  refine ⟨tree', hall, ⟨⟨_, addr', hrefines, hrep⟩, ?_, hinc, hmax ▸ hitems, hfit⟩, hmax⟩
  rw [h.refines.insertAll_sibling hsmall hall, hnone]

theorem shape_has (hrep : Represents T us) :
    (shape T).Has a ↔ a = [] ∨ ∃ t ∈ us, a <+: t.items := by
  have hmem : (shape T).Has a ↔ a = [] ∨ a ∈ T.nodes := List.mem_cons
  rw [hmem, hrep.mem]
  by_cases ha : a = []
  · simp [ha]
  · simp [ha]

theorem Holding.small (h : Holding tree us) {t : Trans} (ht : t ∈ us) {y : Nat} (hy : y ∈ t.items) :
    y < itemLimit := by
  obtain ⟨T, addr, hrefines, hrep⟩ := h.refines
  have hm : t.items ∈ (shape T).nodes :=
    (hrep.mem t.items).mpr ⟨List.ne_nil_of_mem hy, t, ht, List.prefix_rfl⟩
  exact hrefines.links.item_small hm hy

theorem children_onePath_iff (hok : (shape T).Ok) (hrep : Represents T us) {l : List Nat}
    (hall : (∀ b, (shape T).Has b → ((shape T).children b).length ≤ 1) →
      ∀ b, (shape T).Has b → b <+: l) :
    (∀ b, (shape T).Has b → ((shape T).children b).length ≤ 1) ↔ OnePath us := by
  constructor
  · intro hle t ht t' ht'
    have hhas : ∀ t ∈ us, (shape T).Has t.items := fun t ht =>
      (shape_has hrep).mpr (.inr ⟨t, ht, List.prefix_rfl⟩)
    exact List.prefix_or_prefix_of_prefix (hall hle _ (hhas t ht)) (hall hle _ (hhas t' ht'))
  · intro hone b hb
    have hone_child : ∀ i ∈ (shape T).children b, ∀ j ∈ (shape T).children b, i = j := by
      intro i hi j hj
      obtain ⟨-, t, ht, hp⟩ := (hrep.mem _).mp ((hok.child b i).mp hi)
      obtain ⟨-, t', ht', hp'⟩ := (hrep.mem _).mp ((hok.child b j).mp hj)
      have hsame : ∀ l, b ++ [i] <+: l → b ++ [j] <+: l → i = j := by
        intro l hil hjl
        have heq := (List.prefix_of_prefix_length_le hil hjl (by simp)).eq_of_length (by simp)
        exact List.singleton_inj.mp (List.append_cancel_left heq)
      rcases hone t ht t' ht' with htt | htt
      · exact hsame _ (hp.trans htt) hp'
      · exact hsame _ hp (hp'.trans htt)
    cases hchildren : (shape T).children b with
    | nil => exact Nat.zero_le 1
    | cons i rest =>
      cases rest with
      | nil => exact Nat.le_refl 1
      | cons j rest =>
        have hnd := hok.childNodup b
        rw [hchildren] at hone_child hnd
        have hij := hone_child i List.mem_cons_self j (by simp)
        exact absurd (hij ▸ List.mem_cons_self) (List.nodup_cons.mp hnd).1

theorem Holding.singlePath (h : Holding tree us) :
    (∃ b, isSinglePath tree = .ok b ∧ (b = true ↔ OnePath us)) ∧
      (OnePath us → ∃ T addr l nodes, Linked tree (shape T) addr ∧
        Leftmost tree (shape T) addr [] l nodes ∧
        ∀ Y : List Nat, Y.Sublist l ↔ Y = [] ∨ ∃ t ∈ us, Y.Sublist t.items) := by
  obtain ⟨T, addr, hrefines, hrep⟩ := h.refines
  obtain ⟨l, nodes, hdown⟩ := hrefines.links.leftmost (shape T).has_root
  have hall : (∀ b, (shape T).Has b → ((shape T).children b).length ≤ 1) →
      ∀ b, (shape T).Has b → b <+: l := fun hle b hb =>
    hdown.all (fun b hb _ => hle b hb) b hb List.nil_prefix
  have hiff := children_onePath_iff hrefines.links.ok hrep hall
  constructor
  · obtain ⟨b, hb, hsingle⟩ := hrefines.links.isSinglePath_eq h.sibling
    exact ⟨b, hb, hsingle.trans hiff⟩
  · intro hone
    refine ⟨T, addr, l, nodes, hrefines.links, hdown, fun Y => ⟨fun hY => ?_, ?_⟩⟩
    · rcases (shape_has hrep).mp hdown.has with hnil | ⟨t, ht, hp⟩
      · exact .inl (List.sublist_nil.mp (hnil ▸ hY))
      · exact .inr ⟨t, ht, hY.trans hp.sublist⟩
    · rintro (rfl | ⟨t, ht, hY⟩)
      · exact List.nil_sublist l
      · have hhas := (shape_has hrep).mpr (.inr ⟨t, ht, List.prefix_rfl⟩)
        exact hY.trans (hall (hiff.mpr hone) _ hhas).sublist

/-! ## `Mine` -/

variable {ts : List Trans} {minsupp : Nat} {suffix : List Nat} {w : BitVec 16} {L : List (List Nat)}

theorem Holding.mineIntoPatTree_ok (h : Holding tree us) (hts : Increasing ts)
    (halike : Alike us (conditional ts minsupp suffix)) (hsuffix : suffix.Pairwise (· < ·))
    (hsmall : ∀ c ∈ suffix, c < itemLimit) (hone : OnePath us)
    (hlen : ∀ t ∈ us, t.items.length ≤ maxBits) {s : Mining} (hholds : HoldsPaths s.patternTree L) :
    ∃ s' sum L', mineIntoPatTree tree suffix.reverse w s = .ok (s', sum) ∧
      HoldsPaths s'.patternTree (L ++ L') ∧
      Filled (Mined ts minsupp suffix) s.flag s'.flag L' := by
  obtain ⟨T, addr, l, nodes, hlinks, hdown, hpath⟩ := h.singlePath.2 hone
  have hmax : l.length ≤ maxBits := by
    rcases (hpath l).mp (List.Sublist.refl l) with rfl | ⟨t, ht, hsub⟩
    · exact Nat.zero_le _
    · exact hsub.length_le.trans (hlen t ht)
  obtain ⟨s', sum, L', hrun, h', hfilled⟩ := Swim.mineIntoPatTree_ok hlinks hdown hholds
    (fun c hc => hsmall c (List.mem_reverse.mp hc)) hmax
  have hpatterns : ∀ X, Mined ts minsupp suffix X ↔ ∃ Y, Y.Sublist l ∧ X = Y ++ suffix := by
    intro X
    rw [FPTree.mined_path_iff (halike.onePath_iff.mp hone)]
    exact exists_congr fun Y => and_congr_left' ((halike.sublist_iff).symm.trans (hpath Y).symm)
  refine ⟨s', sum, L', hrun, h', hfilled.congr fun X => ?_⟩
  rw [hpatterns]
  refine exists_congr fun Y => and_congr_right fun hY => ?_
  have hincr := (((hpatterns (Y ++ suffix)).mpr ⟨Y, hY, rfl⟩)).increasing hts hsuffix
  have hperm : (suffix.reverse ++ Y).Perm (Y ++ suffix) :=
    List.perm_append_comm.trans ((suffix.reverse_perm).append_left Y)
  rw [sortTran_eq hperm hincr]

/-- The pass for `i` up to the call: the conditional tree holds what the suffix with `i` leaves. -/
theorem Holding.conditional_ok (h : Holding tree us)
    (halike : Alike us (conditional ts minsupp suffix)) (hi : ∃ t ∈ us, i ∈ t.items)
    (hfreq : minsupp ≤ supportOf ts (i :: suffix)) {maxLen : Int} (hlen : itemCount us ≤ maxLen)
    {conTree : Tree} {C : Shape} {caddr : Adr → Ptr} (hcon : Linked conTree C caddr)
    (hmax : conTree.maxItems = tree.maxItems) :
    ∃ buf count tree₀ tree₁ vs, tree.writeChain maxLen i = .ok (buf, count) ∧
      emptyTree conTree = .ok tree₀ ∧
      insertAll tree₀ (readBack ⟨0, []⟩ (buf.reverse.filter (kept minsupp count))) = .ok tree₁ ∧
      Holding tree₁ vs ∧ Alike vs (conditional ts minsupp (i :: suffix)) ∧
      tree₁.maxItems = tree.maxItems ∧ itemCount vs ≤ itemCount us ∧
      ∀ t ∈ vs, ∀ y ∈ t.items, y < i := by
  obtain ⟨T, addr, hrefines, hrep⟩ := h.refines
  obtain ⟨buf, count, hwrite, hrev, hcount⟩ :=
    hrefines.writeChain_eq hrep h.increasing h.fit hlen i
  obtain ⟨tree₀, hempty, hcleared, hmax₀⟩ := hcon.emptyTree_ok
  obtain ⟨f, hf⟩ : ∃ f : Nat → Bool, ∀ y, f y = decide ((minsupp : Int) ≤ (count y).toInt) :=
    ⟨_, fun y => rfl⟩
  have hkept : ∀ y < i, f y = decide (minsupp ≤ supportOf us [i, y]) := by
    intro y hy
    rw [hf, hcount y hy]
    exact decide_eq_decide.mpr Int.ofNat_le
  have hread : readBack ⟨0, []⟩ (buf.reverse.filter (kept minsupp count)) =
      nonempty (above T f (T.header i).reverse) := by
    rw [hrev, kept_above, ← funext hf, readBack_encode, flatMap_flush]
    rfl
  have hpaths := hrep.above_increasing (x := i) (f := f) h.increasing
  have halike' := hrep.conditional_alike h.increasing halike hi hfreq hkept
  have hbelow : ∀ t ∈ nonempty (above T f (T.header i).reverse), ∀ y ∈ t.items,
      y < i ∧ ∃ u ∈ us, y ∈ u.items := fun t ht => (hpaths t (List.mem_of_mem_filter ht)).2
  have hfit : totalSupport (nonempty (above T f (T.header i).reverse)) ≤ totalSupport us :=
    hrep.weightOf_nonempty_above h.increasing _
  obtain ⟨tree₁, hall, hholding, hmax₁⟩ := hcleared.insertAll_holding
    (fun t ht => (hpaths t (List.mem_of_mem_filter ht)).1) (fun t ht y hy => by
      obtain ⟨-, u, hu, hyu⟩ := hbelow t ht y hy
      rw [hmax₀, hmax]
      exact h.items u hu y hyu) (fun t ht y hy => by
      obtain ⟨-, u, hu, hyu⟩ := hbelow t ht y hy
      exact h.small hu hyu) (hfit.trans_lt h.fit)
  refine ⟨buf, count, tree₀, tree₁, _, hwrite, hempty, hread ▸ hall, hholding,
    (FPTree.nonempty_alike _).trans halike', hmax₁.trans (hmax₀.trans hmax), ?_, fun t ht y hy =>
      (hbelow t ht y hy).1⟩
  exact (FPTree.itemCount_nonempty _).trans (hrep.itemCount_above h.increasing)

theorem Holding.header_cases (h : Holding tree us) (i : Nat) :
    (tree.header i = none ∧ ¬ ∃ t ∈ us, i ∈ t.items) ∨
      ∃ target, tree.header i = some target ∧ tree.itemIndex target = .ok i ∧
        ∃ t ∈ us, i ∈ t.items := by
  obtain ⟨T, addr, hrefines, hrep⟩ := h.refines
  have hheader := hrefines.links.header i
  cases hchain : (shape T).header i with
  | nil =>
    rw [hchain] at hheader
    refine .inl ⟨hheader, fun ⟨t, ht, hi⟩ => ?_⟩
    have hp := (FPTree.concat_prefix_iff (h.increasing t ht)).mpr ⟨hi, rfl⟩
    have hm : _ ∈ (shape T).header i := hrep.mem_header.mpr ⟨_, rfl, t, ht, hp⟩
    rw [hchain] at hm
    exact List.not_mem_nil hm
  | cons a as =>
    have hm : a ∈ T.header i := by
      change a ∈ (shape T).header i
      rw [hchain]
      exact List.mem_cons_self
    obtain ⟨b, rfl, t, ht, hp⟩ := hrep.mem_header.mp hm
    rw [hchain] at hheader
    refine .inr ⟨_, hheader, ?_, t, ht, hp.subset (List.mem_append_right b List.mem_cons_self)⟩
    exact hrefines.links.itemIndex_eq (List.mem_of_mem_filter hm)

theorem Holding.single (h : Holding tree us) (i : Nat) :
    (tree.singleSupport i).toInt = supportOf us [i] := by
  obtain ⟨T, addr, hrefines, hrep⟩ := h.refines
  rw [hrefines.single, hrep.single, toInt_weight (weightOf_le us _) h.fit]
  refine congrArg Nat.cast (congrArg (weightOf us) (funext fun l => ?_))
  exact decide_eq_decide.mpr List.forall_mem_singleton.symm

/-- A call of `Mine` for a suffix, with items below `n` in the tree. -/
structure Call (ts : List Trans) (minsupp : Nat) (maxLen : Int) (n : Nat) (tree : Tree)
    (us : List Trans) (suffix : List Nat) : Prop where
  holding : Holding tree us
  alike : Alike us (conditional ts minsupp suffix)
  visited : Visited ts minsupp suffix
  small : ∀ c ∈ suffix, c < itemLimit
  below : ∀ t ∈ us, ∀ y ∈ t.items, y < n
  room : itemCount us ≤ maxLen

/-- The patterns with `P` are put in. -/
def Puts (P : List Nat → Prop) (s s' : Mining) (L : List (List Nat)) : Prop :=
  ∃ L', HoldsPaths s'.patternTree (L ++ L') ∧ Filled P s.flag s'.flag L'

def Mines (ts : List Trans) (minsupp : Nat) (maxLen : Int) (n : Nat)
    (f : Tree → List Nat → Mining → Except Fault (Mining × Nat)) : Prop :=
  ∀ {tree us suffix s L}, Call ts minsupp maxLen n tree us suffix → HoldsPaths s.patternTree L →
    ∃ s' sum, f tree suffix.reverse s = .ok (s', sum) ∧ Puts (Mined ts minsupp suffix) s s' L

def Emptiable (maxItems : Nat) (conTree : Tree) : Prop :=
  conTree.maxItems = maxItems ∧ ∃ C caddr, Linked conTree C caddr

variable {maxLen : Int}

theorem Holding.emptiable (h : Holding tree us) {maxItems : Nat} (hmax : tree.maxItems = maxItems) :
    Emptiable maxItems tree := by
  obtain ⟨T, addr, hrefines, -⟩ := h.refines
  exact ⟨hmax, _, addr, hrefines.links⟩

theorem Call.single (h : Call ts minsupp maxLen n tree us suffix) (hi : ∃ t ∈ us, i ∈ t.items) :
    (tree.singleSupport i).toInt = supportOf ts (i :: suffix) := by
  obtain ⟨t, ht, hit⟩ := (h.alike.mem_iff i).mp hi
  rw [h.holding.single, h.alike.supportOf_eq (List.cons_ne_nil i []),
    FPTree.supportOf_conditional
      (List.forall_mem_singleton.mpr (FPTree.conditional_extends ht hit))]
  rfl

theorem Call.item_ok (h : Call ts minsupp maxLen (n + 1) tree us suffix) (hno : ¬ OnePath us)
    {f : Tree → List Nat → Mining → Except Fault (Mining × Nat)}
    (hmine : Mines ts minsupp maxLen n f)
    {r : Tree × Mining × Nat} (hempties : Emptiable tree.maxItems r.1)
    (hholds : HoldsPaths r.2.1.patternTree L) (i : Nat) :
    ∃ r', mineItem minsupp maxLen f tree suffix.reverse r i = .ok r' ∧
      Emptiable tree.maxItems r'.1 ∧
      Puts (fun X => (∃ t ∈ us, i ∈ t.items) ∧ minsupp ≤ supportOf ts (i :: suffix) ∧
        Mined ts minsupp (i :: suffix) X) r.2.1 r'.2.1 L := by
  have hnothing : ∀ P : List Nat → Prop, (∀ X, ¬ P X) → Puts P r.2.1 r.2.1 L := fun P hP =>
    ⟨[], (List.append_nil L).symm ▸ hholds, .nil hP⟩
  rcases h.holding.header_cases i with ⟨hnone, hi⟩ | ⟨target, hsome, hindex, hi⟩
  · refine ⟨r, ?_, hempties, hnothing _ fun X hX => hi hX.1⟩
    rw [mineItem, hnone]
    rfl
  · by_cases hfreq : minsupp ≤ supportOf ts (i :: suffix)
    · obtain ⟨hmax, C, caddr, hcon⟩ := hempties
      obtain ⟨buf, count, tree₀, tree₁, vs, hwrite, hempty, hall, hholding, halike, hmax₁, hroom,
        hlt⟩ := h.holding.conditional_ok h.alike hi hfreq h.room hcon hmax
      have hcall : Call ts minsupp maxLen n tree₁ vs (i :: suffix) := by
        obtain ⟨t, ht, hit⟩ := hi
        refine ⟨hholding, halike, .cons h.visited (fun hone => hno (h.alike.onePath_iff.mpr hone))
          ((h.alike.mem_iff i).mp ⟨t, ht, hit⟩) hfreq,
          List.forall_mem_cons.mpr ⟨h.holding.small ht hit, h.small⟩,
          fun u hu y hy => ?_, (Int.ofNat_le.mpr hroom).trans h.room⟩
        have hin := h.below t ht i hit
        have hyi := hlt u hu y hy
        omega
      obtain ⟨s', sum, hrun, L', hputs⟩ := hmine hcall hholds
      refine ⟨(tree₁, s', r.2.2 + sum), ?_, hholding.emptiable hmax₁, L', hputs.1,
        hputs.2.congr fun X => ⟨fun hX => ⟨hi, hfreq, hX⟩, fun hX => hX.2.2⟩⟩
      have hnot : ¬ (tree.singleSupport i).toInt < minsupp := by
        rw [h.single hi]
        omega
      rw [List.reverse_cons] at hrun
      rw [mineItem, hsome]
      simp only [if_neg hnot, Bind.bind, Except.bind, hindex, hwrite, hempty, hall, hrun]
      rfl
    · refine ⟨r, ?_, hempties, hnothing _ fun X hX => hfreq hX.2.1⟩
      have hlow : (tree.singleSupport i).toInt < minsupp := by
        rw [h.single hi]
        omega
      rw [mineItem, hsome]
      simp only [if_pos hlow]
      rfl

theorem Call.items_ok (h : Call ts minsupp maxLen (n + 1) tree us suffix) (hno : ¬ OnePath us)
    {f : Tree → List Nat → Mining → Except Fault (Mining × Nat)}
    (hmine : Mines ts minsupp maxLen n f)
    (l : List Nat) {r : Tree × Mining × Nat} (hempties : Emptiable tree.maxItems r.1)
    (hholds : HoldsPaths r.2.1.patternTree L) :
    ∃ r', l.foldlM (mineItem minsupp maxLen f tree suffix.reverse) r = .ok r' ∧
      Puts (fun X => ∃ i ∈ l, (∃ t ∈ us, i ∈ t.items) ∧ minsupp ≤ supportOf ts (i :: suffix) ∧
        Mined ts minsupp (i :: suffix) X) r.2.1 r'.2.1 L := by
  induction l generalizing r L with
  | nil => exact ⟨r, rfl, [], (List.append_nil L).symm ▸ hholds, .nil fun X hX => by simp at hX⟩
  | cons i l ih =>
    obtain ⟨r₁, hrun₁, hempties₁, L₁, hholds₁, hfilled₁⟩ := h.item_ok hno hmine hempties hholds i
    obtain ⟨r', hrun, L', hholds', hfilled'⟩ := ih hempties₁ hholds₁
    refine ⟨r', ?_, L₁ ++ L', List.append_assoc L L₁ L' ▸ hholds',
      (hfilled₁.append hfilled').congr fun X => ?_⟩
    · rw [List.foldlM_cons, hrun₁]
      exact hrun
    · simp [List.mem_cons, or_and_right, exists_or]

theorem mine_mines (hts : Increasing ts)
    (hlimit : ∀ S, Visited ts minsupp S → OnePath (conditional ts minsupp S) →
      ∀ t ∈ conditional ts minsupp S, t.items.length ≤ maxBits) {fuel : Nat} (hn : n < fuel) :
    Mines ts minsupp maxLen n (mine minsupp maxLen w fuel) := by
  induction fuel generalizing n with
  | zero => exact absurd hn (Nat.not_lt_zero n)
  | succ fuel ih =>
    intro tree us suffix s L h hholds
    obtain ⟨b, hsingle, hb⟩ := h.holding.singlePath.1
    by_cases hone : OnePath us
    · have hlen : ∀ t ∈ us, t.items.length ≤ maxBits := by
        intro t ht
        by_cases hnil : t.items = []
        · rw [hnil]
          exact Nat.zero_le _
        · obtain ⟨u, hu, hitems⟩ := (h.alike.items t.items hnil).mp ⟨t, ht, rfl⟩
          exact hitems ▸ hlimit suffix h.visited (h.alike.onePath_iff.mp hone) u hu
      obtain ⟨s', sum, L', hrun, hputs⟩ := h.holding.mineIntoPatTree_ok hts h.alike
        h.visited.increasing h.small hone hlen hholds
      refine ⟨s', sum, ?_, L', hputs⟩
      rw [mine, hsingle, hb.mpr hone]
      exact hrun
    · cases n with
      | zero =>
        have hempty : ∀ t ∈ us, t.items = [] := fun t ht =>
          List.eq_nil_iff_forall_not_mem.mpr fun y hy => Nat.not_lt_zero y (h.below t ht y hy)
        exact absurd (fun t ht t' _ => .inl (hempty t ht ▸ List.nil_prefix)) hone
      | succ n =>
        have hempties : Emptiable tree.maxItems (newTree tree.maxItems) :=
          ⟨rfl, _, _, (Cleared.refines (.inl ⟨tree.maxItems, rfl⟩)).links⟩
        obtain ⟨r', hrun, L', hholds', hfilled⟩ := h.items_ok hone (ih (Nat.lt_of_succ_lt_succ hn))
          tree.items (r := (newTree tree.maxItems, s, 0)) hempties hholds
        refine ⟨r'.2.1, r'.2.2, ?_, L', hholds', hfilled.congr fun X => ?_⟩
        · rw [mine, hsingle, Bool.eq_false_iff.mpr fun htrue => hone (hb.mp htrue)]
          rw [hrun]
          rfl
        · rw [FPTree.mined_step_iff fun hpath => hone (h.alike.onePath_iff.mpr hpath)]
          constructor
          · rintro ⟨i, -, hi, hX⟩
            exact ⟨i, (h.alike.mem_iff i).mp hi, hX⟩
          · rintro ⟨i, hi, hX⟩
            obtain ⟨t, ht, hit⟩ := (h.alike.mem_iff i).mpr hi
            exact ⟨i, tree.mem_items.mpr (h.holding.items t ht i hit), ⟨t, ht, hit⟩, hX⟩

/-! ## The paths of the pattern tree -/

def Tree.paths (tree : Tree) : Set (List Int) := {α | α ≠ [] ∧ ∃ p, tree.At p α}

def frequent (ts : List Trans) (minsupp : Nat) : Set (List Int) :=
  List.map Int.ofNat '' {X | X ≠ [] ∧ X.Pairwise (· < ·) ∧ minsupp ≤ supportOf ts X}

theorem Cleared.holdsPaths (h : Cleared tree) : HoldsPaths tree [] :=
  ⟨_, _, _, ⟨h.refines.links, fun _ => .nil, rfl⟩, fun b => by simp [shape, FPTree.newTree]⟩

theorem HoldsPaths.paths_eq (h : HoldsPaths tree L) :
    tree.paths = List.map Int.ofNat '' {X | X ≠ [] ∧ ∃ Z ∈ L, X <+: Z} := by
  obtain ⟨S, addr, D, hD, hnodes⟩ := h
  ext α
  constructor
  · rintro ⟨hα, p, hat⟩
    obtain ⟨X, hX, -, rfl⟩ := hD.links.at_iff.mp hat
    have hne : X ≠ [] := fun hnil => hα (by rw [hnil]; rfl)
    exact ⟨X, (hnodes X).mp ((List.mem_cons.mp hX).resolve_left hne), rfl⟩
  · rintro ⟨X, hX, rfl⟩
    have hm := S.has_node ((hnodes X).mpr hX)
    exact ⟨fun hnil => hX.1 (List.map_eq_nil_iff.mp hnil), _,
      hD.links.at_iff.mpr ⟨X, hm, rfl, rfl⟩⟩

theorem Puts.paths_iff {s s' : Mining} (h : Puts (Mined ts minsupp []) s s' [])
    (hts : Increasing ts) (hm : 1 ≤ minsupp) (hflag : s'.flag = false) :
    s'.patternTree.paths = frequent ts minsupp ↔
      FPTree.NoneAdded ts minsupp ∧ FPTree.NoneMissed ts minsupp := by
  obtain ⟨L', hholds, hfilled⟩ := h
  have hmined : ∀ X : List Nat, (∃ Z ∈ [] ++ L', X <+: Z) ↔
      ∃ Z, Mined ts minsupp [] Z ∧ X <+: Z := fun X => exists_congr fun Z =>
    and_congr_left fun _ => ⟨hfilled.sound Z, (hfilled.complete hflag).2 Z⟩
  rw [← FPTree.mined_paths_iff hts hm, hholds.paths_eq, frequent,
    Set.image_eq_image (List.map_injective_iff.mpr Int.ofNat_injective), Set.ext_iff]
  simp only [Set.mem_ofPred_eq, and_congr_right_iff, hmined]

/-- Any buffer that holds the transactions is large enough, and more fuel than items is enough. -/
theorem mine_run (ts : List Trans) (minsupp : Nat) (maxLen : Int) (w : BitVec 16)
    {tree₀ patternTree : Tree} (h0 : Cleared tree₀) (hpattern : Cleared patternTree)
    (hts : ∀ t ∈ ts, t.items.Pairwise (· < ·) ∧ ∀ i ∈ t.items, i < tree₀.maxItems)
    (hsmall : ∀ t ∈ ts, ∀ i ∈ t.items, i < itemLimit) (hfit : totalSupport ts < 2 ^ 31)
    (hlen : itemCount ts ≤ maxLen)
    (hlimit : ∀ S, Visited ts minsupp S → OnePath (conditional ts minsupp S) →
      ∀ t ∈ conditional ts minsupp S, t.items.length ≤ maxBits) (inserted : Nat) :
    ∃ tree, insertAll tree₀ ts = .ok tree ∧ ∀ fuel > tree₀.maxItems, ∃ s sum,
      mine minsupp maxLen w fuel tree [] ⟨patternTree, inserted, false⟩ = .ok (s, sum) ∧
        Puts (Mined ts minsupp []) ⟨patternTree, inserted, false⟩ s [] := by
  obtain ⟨tree, hall, hholding, hmax⟩ := h0.insertAll_holding (fun t ht => (hts t ht).1)
    (fun t ht => (hts t ht).2) hsmall hfit
  refine ⟨tree, hall, fun fuel hfuel => ?_⟩
  have hcall : Call ts minsupp maxLen tree₀.maxItems tree ts [] :=
    ⟨hholding, FPTree.conditional_nil.symm ▸ .refl ts, .nil, by simp, fun t ht => (hts t ht).2,
      hlen⟩
  exact mine_mines hholding.increasing hlimit hfuel hcall hpattern.holdsPaths

/-- The paths of the pattern tree are the frequent itemsets exactly if no infrequent item lies on a
single path and a single path is left for some end of every frequent itemset that no larger item
extends. -/
theorem mine_paths_iff {tree₀ patternTree : Tree} (h0 : Cleared tree₀)
    (hpattern : Cleared patternTree)
    (hts : ∀ t ∈ ts, t.items.Pairwise (· < ·) ∧ ∀ i ∈ t.items, i < tree₀.maxItems)
    (hsmall : ∀ t ∈ ts, ∀ i ∈ t.items, i < itemLimit) (hfit : totalSupport ts < 2 ^ 31)
    (hm : 1 ≤ minsupp) (hlen : itemCount ts ≤ maxLen)
    (hlimit : ∀ S, Visited ts minsupp S → OnePath (conditional ts minsupp S) →
      ∀ t ∈ conditional ts minsupp S, t.items.length ≤ maxBits) (inserted : Nat) :
    ∃ tree, insertAll tree₀ ts = .ok tree ∧ ∀ fuel > tree₀.maxItems, ∃ s sum,
      mine minsupp maxLen w fuel tree [] ⟨patternTree, inserted, false⟩ = .ok (s, sum) ∧
        (s.flag = false → (s.patternTree.paths = frequent ts minsupp ↔
          FPTree.NoneAdded ts minsupp ∧ FPTree.NoneMissed ts minsupp)) := by
  obtain ⟨tree, hall, hmine⟩ :=
    mine_run ts minsupp maxLen w h0 hpattern hts hsmall hfit hlen hlimit inserted
  refine ⟨tree, hall, fun fuel hfuel => ?_⟩
  obtain ⟨s, sum, hrun, hputs⟩ := hmine fuel hfuel
  exact ⟨s, sum, hrun, hputs.paths_iff (fun t ht => (hts t ht).1) hm⟩

/-- {0, 2} and {0, 1, 2} -/
theorem mine_paths_iff_two : ∃ tree,
    insertAll (newTree 3) [⟨1, [0, 2]⟩, ⟨1, [0, 1, 2]⟩] = .ok tree ∧
    ∀ fuel > 3, ∃ s sum, mine (1 : Nat) 5 0 fuel tree [] ⟨newTree 3, 0, false⟩ = .ok (s, sum) ∧
      (s.flag = false → (s.patternTree.paths = frequent [⟨1, [0, 2]⟩, ⟨1, [0, 1, 2]⟩] 1 ↔
        FPTree.NoneAdded [⟨1, [0, 2]⟩, ⟨1, [0, 1, 2]⟩] 1 ∧
          FPTree.NoneMissed [⟨1, [0, 2]⟩, ⟨1, [0, 1, 2]⟩] 1)) :=
  mine_paths_iff (.inl ⟨3, rfl⟩) (.inl ⟨3, rfl⟩) (by decide) (by decide) (by decide) (by decide)
    (by decide) (fun _ _ _ => FPTree.conditional_length (by decide)) 0

/-- {2} is frequent with {0, 2} and {1, 2}, and is not put in. -/
theorem mine_misses_two : ∃ tree s sum,
    insertAll (newTree 3) [⟨1, [0, 2]⟩, ⟨1, [1, 2]⟩] = .ok tree ∧
      mine (1 : Nat) 4 0 4 tree [] ⟨newTree 3, 0, false⟩ = .ok (s, sum) ∧ s.flag = false ∧
        s.patternTree.paths ≠ frequent [⟨1, [0, 2]⟩, ⟨1, [1, 2]⟩] 1 := by
  obtain ⟨tree, hall, hmine⟩ := mine_run [⟨1, [0, 2]⟩, ⟨1, [1, 2]⟩] 1 4 0 (.inl ⟨3, rfl⟩)
    (.inl ⟨3, rfl⟩) (by decide) (by decide) (by decide) (by decide)
    (fun _ _ _ => FPTree.conditional_length (by decide)) 0
  obtain ⟨s, sum, hrun, hputs⟩ := hmine 4 (by decide)
  have hflag : ((insertAll (newTree 3) [⟨1, [0, 2]⟩, ⟨1, [1, 2]⟩]).bind fun tree =>
      (mine (1 : Nat) 4 0 4 tree [] ⟨newTree 3, 0, false⟩).map fun r => r.1.flag).toOption =
        some false := by
    decide +kernel
  rw [hall, Except.bind, hrun] at hflag
  have hfalse : s.flag = false := Option.some.inj hflag
  have hlast : ∀ S : List Nat, S <:+ [2] →
      ¬ OnePath (conditional [⟨1, [0, 2]⟩, ⟨1, [1, 2]⟩] 1 S) := by
    intro S hS
    rcases List.suffix_cons_iff.mp hS with rfl | hS
    · decide
    · obtain rfl := List.suffix_nil.mp hS
      decide
  refine ⟨tree, s, sum, hall, hrun, hfalse, fun hpaths => ?_⟩
  obtain ⟨-, hmissed⟩ := (hputs.paths_iff (by decide) (by decide) hfalse).mp hpaths
  obtain ⟨S, hS, hone⟩ := hmissed [2] (by decide) (by decide) (by decide) fun y hy => by
    have hbig := hy 2 List.mem_cons_self
    have hnone : supportOf [⟨1, [0, 2]⟩, ⟨1, [1, 2]⟩] ([2] ++ [y]) = 0 := by
      refine weight_zero fun t ht => decide_eq_false fun hall => ?_
      have hmax : ∀ t ∈ [(⟨1, [0, 2]⟩ : Trans), ⟨1, [1, 2]⟩], ∀ i ∈ t.items, i ≤ 2 := by decide
      have hle := hmax t ht y (hall y (by simp))
      omega
    omega
  exact hlast S hS hone

end StreamMill.Swim

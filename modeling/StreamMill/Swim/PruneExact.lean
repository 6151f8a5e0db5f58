import StreamMill.Swim.Insertions
import StreamMill.Swim.Prune

/-!
# StreamMill.Swim.PruneExact

`PruneTree` on the trees that `InsertPatternSortedly` makes. It looks at no item, so neither do the
nodes here: the shape of a tree names every node by the addresses on the way to it, and items that
do not fit in `itemNo` do no harm. What makes the pruning right is that no node was last seen later
than its parent (`Grown.closed`).
-/

namespace StreamMill.Swim

open Lib
open FPTree (Trans Adr)

variable {tree tree' : Tree} {S : Shape} {addr : Adr → Ptr} {chains : Nat → List Adr} {a b : Adr}
  {i c s w : Nat} {wid : BitVec 16}

theorem seekFrom_mem (c : Nat) {l : List Ptr} {o : Option Ptr} {fuel : Nat}
    (hpath : Path (fun p => (tree.node p).sibling) o l) (hfuel : l.length ≤ fuel) :
    ∃ r, tree.seekFrom c fuel o = .ok r ∧ ∀ p ∈ r, p ∈ l := by
  induction l generalizing o fuel with
  | nil =>
    cases hpath
    exact ⟨none, by cases fuel <;> rfl, fun p hp => nomatch hp⟩
  | cons q l ih =>
    obtain ⟨rfl, hpath⟩ := hpath
    cases fuel with
    | zero => cases hfuel
    | succ fuel =>
      obtain ⟨r, hrest, hr⟩ := ih hpath (Nat.le_of_succ_le_succ hfuel)
      have hself : ∀ p ∈ some q, p ∈ q :: l := fun p hp => by
        cases hp
        exact List.mem_cons_self
      rw [Tree.seekFrom]
      by_cases hq : (tree.node q).itemNo.toInt = c
      · exact ⟨some q, if_pos hq, hself⟩
      · rw [if_neg hq]
        by_cases hgt : (tree.node q).itemNo.toInt > c
        · exact ⟨none, if_pos hgt, fun p hp => nomatch hp⟩
        · rw [if_neg hgt]
          cases hsibling : (tree.node q).sibling with
          | none => exact ⟨some q, rfl, hself⟩
          | some next =>
            by_cases hnext : (tree.node next).itemNo.toInt ≤ c
            · refine ⟨r, ?_, fun p hp => List.mem_cons_of_mem _ (hr p hp)⟩
              change tree.seekFrom c fuel (tree.node q).sibling = .ok r at hrest
              rw [hsibling] at hrest
              exact (if_pos hnext).trans hrest
            · exact ⟨some q, if_neg hnext, hself⟩

theorem Wired.seek_child (h : Wired tree S addr chains) (ha : S.Has a) (c : Nat) :
    ∃ left : Option Nat, tree.seek (addr a) c = .ok (left.map fun j => addr (a ++ [j])) ∧
      ∀ j ∈ left, j ∈ S.children a := by
  have hle := (h.children_nodup (List.Sublist.refl (S.children a))).2
  obtain ⟨r, hseek, hr⟩ := seekFrom_mem c (h.children a ha) hle
  cases r with
  | none => exact ⟨none, hseek, fun j hj => nomatch hj⟩
  | some p =>
    obtain ⟨j, hj, rfl⟩ := List.mem_map.mp (hr p rfl)
    refine ⟨some j, hseek, fun k hk => ?_⟩
    cases hk
    exact hj

/-- A tree that was made by insertions up to window `w`. -/
structure Grown (tree : Tree) (S : Shape) (addr : Adr → Ptr) (chains : Nat → List Adr) (w : Nat) :
    Prop where
  wired : Wired tree S addr chains
  unmarked : Unmarked tree S addr
  table : ∀ a ∈ S.nodes, ∃ i ∈ tree.items, a ∈ chains i
  labels : ∀ a i, a ++ [i] ∈ S.nodes → i < tree.fresh
  closed : ∀ a i, a ++ [i] ∈ S.nodes → a ≠ [] →
    (tree.node (addr (a ++ [i]))).endId.toNat ≤ (tree.node (addr a)).endId.toNat
  latest : ∀ a ∈ S.nodes, (tree.node (addr a)).endId.toNat ≤ w

theorem Grown.mono (h : Grown tree S addr chains w) {w' : Nat} (hw : w ≤ w') :
    Grown tree S addr chains w' :=
  ⟨h.wired, h.unmarked, h.table, h.labels, h.closed, fun a ha => (h.latest a ha).trans hw⟩

/-- The root, or a node that the insertion has passed. -/
def Reached (tree : Tree) (addr : Adr → Ptr) (wid : BitVec 16) (a : Adr) : Prop :=
  a ≠ [] → (tree.node (addr a)).endId = wid

theorem passNode_end (tree : Tree) (p q : Ptr) (i s : Nat) (wid : BitVec 16) :
    ((tree.passNode p i s wid).node q).endId = if q = p then wid else (tree.node q).endId := by
  have hstamp := congrArg Stamp.endId (passNode_stamp tree p q i s wid)
  rw [apply_ite Stamp.endId] at hstamp
  exact hstamp

theorem Grown.visit (h : Grown tree S addr chains wid.toNat) (hreached : Reached tree addr wid a)
    (hi : i ∈ S.children a) :
    Grown (tree.passNode (addr (a ++ [i])) c s wid) S addr chains wid.toNat ∧
      Reached (tree.passNode (addr (a ++ [i])) c s wid) addr wid (a ++ [i]) := by
  have hm := (h.wired.ok.child a i).mp hi
  have hend : ∀ b, S.Has b →
      ((tree.passNode (addr (a ++ [i])) c s wid).node (addr b)).endId =
        if b = a ++ [i] then wid else (tree.node (addr b)).endId := by
    intro b hb
    rw [passNode_end]
    exact if_congr ⟨h.wired.inj _ _ hb (S.has_node hm), congrArg addr⟩ rfl rfl
  refine ⟨⟨h.wired.congr (passNode_links ..), fun b hb => ?_, h.table, h.labels,
    fun b j hbj hb => ?_, fun b hb => ?_⟩, fun _ => ?_⟩
  · rw [passNode_flag]
    exact h.unmarked b hb
  · have hhas := h.wired.ok.closed b j hbj
    rw [hend _ (S.has_node hbj), hend b hhas]
    by_cases hchild : b ++ [j] = a ++ [i]
    · obtain rfl : b = a := List.append_inj_left' hchild rfl
      have hne : b ≠ b ++ [i] := fun he => not_concat_prefix b i (he ▸ List.prefix_rfl)
      rw [if_pos hchild, if_neg hne, hreached hb]
    · rw [if_neg hchild]
      split
      · exact h.latest _ hbj
      · exact h.closed b j hbj hb
  · rw [hend b (S.has_node hb)]
    split
    · exact le_refl _
    · exact h.latest b hb
  · rw [hend _ (S.has_node hm), if_pos rfl]

theorem Grown.new_label (h : Grown tree S addr chains w) (a : Adr) :
    tree.fresh ∉ S.children a := fun hm =>
  (h.labels a _ ((h.wired.ok.child a _).mp hm)).false

theorem Grown.add (h : Grown tree S addr chains wid.toNat) (hreached : Reached tree addr wid a)
    (ha : S.Has a) (hc : c < tree.maxItems) {left : Option Nat}
    (hleft : ∀ j ∈ left, j ∈ S.children a) :
    let tree' := tree.addNode (addr a) (left.map fun j => addr (a ++ [j])) c s wid none
    let addr' := Function.update addr (a ++ [tree.fresh]) tree.fresh
    ∃ S' chains', Grown tree' S' addr' chains' wid.toNat ∧ S'.Has (a ++ [tree.fresh]) ∧
      Reached tree' addr' wid (a ++ [tree.fresh]) := by
  intro tree' addr'
  have hx := h.new_label a
  obtain ⟨hendNew, hendOld⟩ := h.wired.addNode_get hx (addr a)
    (left.map fun j => addr (a ++ [j])) c s wid Node.endId fun _ _ _ _ _ => rfl
  obtain ⟨hflagNew, hflagOld⟩ := h.wired.addNode_get hx (addr a)
    (left.map fun j => addr (a ++ [j])) c s wid Node.flag fun _ _ _ _ _ => rfl
  have hmem : ∀ {b}, b ∈ (S.add a tree.fresh (FPTree.place left tree.fresh (S.children a))).nodes →
      b = a ++ [tree.fresh] ∨ b ∈ S.nodes := List.mem_cons.mp
  have hitems : tree'.items = tree.items := by
    rw [Tree.items, addNode_maxItems]
    rfl
  refine ⟨S.add a tree.fresh (FPTree.place left tree.fresh (S.children a)),
    addChain chains c (a ++ [tree.fresh]), ⟨h.wired.addNode ha hx hleft, fun b hb => ?_,
      fun b hb => ?_, fun b j hb => ?_, fun b j hbj hb => ?_, fun b hb => ?_⟩,
    Shape.has_add.mpr (.inl rfl), fun _ => hendNew⟩
  · rcases hmem hb with rfl | hb
    · rw [hflagNew]
      exact Flag.noConfusion
    · rw [hflagOld b (S.has_node hb)]
      exact h.unmarked b hb
  · rw [hitems]
    rcases hmem hb with rfl | hb
    · refine ⟨c, tree.mem_items.mpr hc, ?_⟩
      rw [addChain_apply, if_pos rfl]
      exact List.mem_cons_self
    · obtain ⟨i, hi, hbi⟩ := h.table b hb
      refine ⟨i, hi, ?_⟩
      rw [addChain_apply]
      split
      · next hic => exact List.mem_cons_of_mem _ (hic ▸ hbi)
      · exact hbi
  · rw [addNode_fresh]
    rcases hmem hb with heq | hb
    · obtain rfl : j = tree.fresh := List.singleton_inj.mp (List.append_inj_right' heq rfl)
      exact Nat.lt_succ_self _
    · exact Nat.lt_succ_of_lt (h.labels b j hb)
  · rcases hmem hbj with heq | hbj
    · obtain rfl : b = a := List.append_inj_left' heq rfl
      rw [heq, hendNew, hendOld b ha, hreached hb]
      exact le_refl _
    · rw [hendOld _ (S.has_node hbj), hendOld b (h.wired.ok.closed b j hbj)]
      exact h.closed b j hbj hb
  · rcases hmem hb with rfl | hb
    · rw [hendNew]
      exact le_refl _
    · rw [hendOld b (S.has_node hb)]
      exact h.latest b hb

theorem Grown.descend (items : List Nat) (h : Grown tree S addr chains wid.toNat) (ha : S.Has a)
    (hreached : Reached tree addr wid a) :
    ∃ tree' a', ∃ left : Option Nat, ∃ rest, descendSortedly s wid tree (addr a) items =
        .ok (tree', addr a', left.map (fun j => addr (a' ++ [j])), rest) ∧
      S.Has a' ∧ Grown tree' S addr chains wid.toNat ∧ Reached tree' addr wid a' ∧
      tree'.maxItems = tree.maxItems ∧ (∀ c ∈ rest, c ∈ items) ∧
      ∀ j ∈ left, j ∈ S.children a' := by
  induction items generalizing tree a with
  | nil => exact ⟨tree, a, none, [], rfl, ha, h, hreached, rfl, fun _ => id, by simp⟩
  | cons c items ih =>
    obtain ⟨left, hseek, hleft⟩ := h.wired.seek_child ha c
    by_cases hfound : ∃ j ∈ left, (tree.node (addr (a ++ [j]))).itemNo.toInt = c
    · obtain ⟨j, rfl, hitem⟩ := hfound
      have hj := hleft j rfl
      obtain ⟨h₁, hreached₁⟩ := h.visit hreached hj
      obtain ⟨tree', a', left', rest, hdescend, ha', h', hreached', hmax, hsub, hleft'⟩ :=
        ih h₁ (h.wired.ok.has_child hj) hreached₁
      refine ⟨tree', a', left', rest, ?_, ha', h', hreached', hmax,
        fun d hd => List.mem_cons_of_mem _ (hsub d hd), hleft'⟩
      rw [descendSortedly_found hseek hitem]
      exact hdescend
    · refine ⟨tree, a, left, c :: items, descendSortedly_stop hseek fun p hp => ?_, ha, h, hreached,
        rfl, fun _ => id, hleft⟩
      obtain ⟨j, hj, rfl⟩ := Option.map_eq_some_iff.mp hp
      exact fun hitem => hfound ⟨j, hj, hitem⟩

theorem Grown.grow {items : List Nat} {left : Option Nat} (h : Grown tree S addr chains wid.toNat)
    (ha : S.Has a) (hreached : Reached tree addr wid a) (hitems : ∀ c ∈ items, c < tree.maxItems)
    (hleft : ∀ j ∈ left, j ∈ S.children a) :
    let tree' := growSortedly s wid tree (addr a) (left.map fun j => addr (a ++ [j])) items
    tree'.maxItems = tree.maxItems ∧
      ∃ S' addr' chains', Grown tree' S' addr' chains' wid.toNat := by
  induction items generalizing tree S addr chains a left with
  | nil => exact ⟨rfl, S, addr, chains, h⟩
  | cons c items ih =>
    obtain ⟨hc, hitems⟩ := List.forall_mem_cons.mp hitems
    obtain ⟨S₁, chains₁, h₁, hhas, hreached₁⟩ := h.add hreached ha hc hleft
    have hmax : (tree.addNode (addr a) (left.map fun j => addr (a ++ [j])) c s wid none).maxItems =
        tree.maxItems := addNode_maxItems ..
    obtain ⟨hmax', hgrown⟩ := ih h₁ hhas hreached₁ (fun d hd => hmax ▸ hitems d hd)
      (show ∀ j ∈ none, j ∈ S₁.children (a ++ [tree.fresh]) from fun j hj => nomatch hj)
    rw [Function.update_self] at hmax' hgrown
    exact ⟨hmax'.trans hmax, hgrown⟩

theorem Grown.insert {t : Trans} (h : Grown tree S addr chains wid.toNat)
    (hitems : ∀ c ∈ t.items, c < tree.maxItems) :
    ∃ tree' n S' addr' chains', insertPatternSortedly tree t wid = .ok (tree', n) ∧
      tree'.maxItems = tree.maxItems ∧ Grown tree' S' addr' chains' wid.toNat := by
  obtain ⟨tree₁, a, left, rest, hdescend, ha, h₁, hreached, hmax, hsub, hleft⟩ :=
    h.descend t.items S.has_root (absurd rfl)
  obtain ⟨hmax', S', addr', chains', h'⟩ := h₁.grow ha hreached
    (fun c hc => hmax ▸ hitems c (hsub c hc)) hleft
  refine ⟨_, rest.length, S', addr', chains', ?_, hmax'.trans hmax, h'⟩
  rw [h.wired.root] at hdescend
  rw [insertPatternSortedly, hdescend]
  rfl

theorem newTree_grown (maxItems w : Nat) :
    Grown (newTree maxItems) (shape (FPTree.newTree maxItems)) (fun _ => root) (fun _ => []) w := by
  have hno : ∀ {a}, a ∉ (shape (FPTree.newTree maxItems)).nodes := List.not_mem_nil
  have hlinks := (newTree_stamped maxItems).links
  exact ⟨⟨hlinks.ok, rfl, hlinks.inj, hlinks.fresh, fun a i hm => absurd hm hno, hlinks.children,
    fun i a ha => absurd ha List.not_mem_nil, fun i => .nil,
    fun i j a ha => absurd ha List.not_mem_nil, fun i => rfl, fun i => trivial, fun i => rfl, rfl⟩,
    fun a ha => absurd ha hno, fun a ha => absurd ha hno, fun a i hm => absurd hm hno,
    fun a i hm => absurd hm hno, fun a ha => absurd ha hno⟩

/-- Items are in the header table, slide numbers fit in `end` and do not decrease. -/
structure InOrder (maxItems : Nat) (ops : List Insertion) : Prop where
  table : ∀ op ∈ ops, ∀ c ∈ op.trans.items, c < maxItems
  window : ∀ op ∈ ops, 0 ≤ op.windowid ∧ op.windowid < 2 ^ 16
  slides : ops.Pairwise fun op op' => op.windowid ≤ op'.windowid

variable {maxItems : Nat} {ops : List Insertion}

theorem insertRun_grown (h : InOrder maxItems ops) :
    ∃ s S addr chains, insertRun maxItems ops = .ok s ∧ s.1.maxItems = maxItems ∧
      ∀ w : Nat, (∀ op ∈ ops, op.windowid ≤ w) → Grown s.1 S addr chains w := by
  induction ops using List.reverseRecOn with
  | nil => exact ⟨_, _, _, _, rfl, rfl, fun w _ => newTree_grown maxItems w⟩
  | append_singleton ops op ih =>
    obtain ⟨hslides, -, hlast⟩ := List.pairwise_append.mp h.slides
    have hop : op ∈ ops ++ [op] := by simp
    obtain ⟨s, S, addr, chains, hrun, hmax, hgrown⟩ := ih
      ⟨fun op' hop' => h.table op' (List.mem_append_left _ hop'),
        fun op' hop' => h.window op' (List.mem_append_left _ hop'), hslides⟩
    have hwindow := window_eq (h.window op hop)
    have hnow := hgrown op.stamp.2.toNat fun op' hop' => by
      rw [hwindow]
      exact hlast op' hop' op List.mem_cons_self
    obtain ⟨tree', n, S', addr', chains', hinsert, hmax', h'⟩ :=
      hnow.insert fun c hc => hmax ▸ h.table op hop c hc
    refine ⟨(tree', s.2 ++ [n]), S', addr', chains', ?_, hmax'.trans hmax, fun w hw => ?_⟩
    · have hone : insertOne s op = .ok (tree', s.2 ++ [n]) := by
        exact congrArg (· >>= _) hinsert
      rw [insertRun] at hrun
      rw [insertRun, List.foldlM_append, hrun]
      exact (List.foldlM_cons ..).trans (congrArg (· >>= _) hone)
    · have hle := hw op hop
      exact h'.mono (by omega)

/-- `end` is not below the bound. -/
def Tree.stays (tree : Tree) (e : Int) (p : Ptr) : Bool := e ≤ (tree.node p).endId.toNat

/-- `tree'` is `tree` without the nodes whose `end` is below `e`: the lists of children and the
chains have lost these and nothing else, the counters have lost what they counted for them. -/
structure PruneRight (tree tree' : Tree) (e : Int) (deleted : Nat) : Prop where
  nodes : ∀ p, tree'.IsNode p ↔ tree.IsNode p ∧ tree.stays e p
  kept : ∀ p, (tree'.node p).kept = (tree.node p).kept
  flag : ∀ p, tree'.IsNode p → (tree'.node p).flag ≠ .expired
  parent : ∀ p, tree'.IsNode p → ∃ q, (tree'.node p).parent = some q ∧ (q = root ∨ tree'.IsNode q)
  children : ∀ p, p = root ∨ tree'.IsNode p →
    ∃ l, tree.Children p l ∧ tree'.Children p (l.filter (tree.stays e))
  chains : ∀ i, ∃ l, (∀ p ∈ l, tree.IsNode p) ∧ tree.IsChain i l ∧
    tree'.IsChain i (l.filter (tree.stays e)) ∧
    tree'.redundancy i = tree.redundancy i - (l.filter fun p => !tree.stays e p).length ∧
    tree'.singleSupport i = tree.singleSupport i - tree.supports (l.filter fun p => !tree.stays e p)
  total : tree'.totalNodes = tree.totalNodes - deleted
  deleted : ∃ l : List Ptr, l.Nodup ∧ (∀ p, p ∈ l ↔ tree.IsNode p ∧ ¬ tree.stays e p) ∧
    deleted = l.length

theorem Grown.prune_right (h : Grown tree S addr chains w) (e : Int) :
    ∃ tree' n, pruneTree tree e.toNat = .ok (tree', n) ∧ PruneRight tree tree' e n := by
  let K : Adr → Bool := fun a => tree.stays e (addr a)
  have hK : ∀ a ∈ S.nodes, K a = decide (e.toNat ≤ (tree.node (addr a)).endId.toNat) :=
    fun a _ => decide_eq_decide.mpr Int.toNat_le.symm
  have hclosed : S.Closed K := by
    intro a i hm hk
    by_cases ha : a = []
    · exact .inl ha
    · have hle := h.closed a i hm ha
      have hki : e ≤ (tree.node (addr (a ++ [i]))).endId.toNat := of_decide_eq_true hk
      exact .inr (decide_eq_true (by omega))
  obtain ⟨tree', hrun, hp⟩ := h.wired.prune h.table h.unmarked e.toNat hK hclosed
  have hnode : ∀ {p}, tree'.IsNode p ↔ ∃ a ∈ S.nodes, K a ∧ p = addr a := by
    intro p
    rw [hp.wired.isNode_iff]
    simp [Shape.filter, List.mem_filter, and_assoc]
  have hstays : ∀ l : List Adr, (l.map addr).filter (tree.stays e) = (l.filter K).map addr :=
    fun l => List.filter_map
  have hgone : ∀ l : List Adr, (l.map addr).filter (fun p => !tree.stays e p) =
      (l.filter fun a => !K a).map addr := fun l => List.filter_map
  refine ⟨tree', _, hrun, fun p => ?_, hp.kept, fun p hm => ?_, fun p hm => ?_, fun p hm => ?_,
    fun i => ?_, ?_, ?_⟩
  · rw [hnode, h.wired.isNode_iff]
    constructor
    · rintro ⟨a, ha, hk, rfl⟩
      exact ⟨⟨a, ha, rfl⟩, hk⟩
    · rintro ⟨⟨a, ha, rfl⟩, hk⟩
      exact ⟨a, ha, hk, rfl⟩
  · obtain ⟨a, ha, rfl⟩ := hp.wired.isNode_iff.mp hm
    exact hp.unmarked a ha
  · obtain ⟨a, ha, rfl⟩ := hp.wired.isNode_iff.mp hm
    rcases List.eq_nil_or_concat a with rfl | ⟨b, i, rfl⟩
    · exact absurd ha hp.wired.ok.root
    · rw [List.concat_eq_append] at ha ⊢
      refine ⟨addr b, hp.wired.parent b i ha, ?_⟩
      rcases List.mem_cons.mp (hp.wired.ok.closed b i ha) with rfl | hb
      · exact .inl hp.wired.root
      · exact .inr (hp.wired.isNode_iff.mpr ⟨b, hb, rfl⟩)
  · have hhas : ∃ a, (S.filter K).Has a ∧ p = addr a := by
      rcases hm with rfl | hm
      · exact ⟨[], (S.filter K).has_root, hp.wired.root.symm⟩
      · obtain ⟨a, ha, rfl⟩ := hp.wired.isNode_iff.mp hm
        exact ⟨a, (S.filter K).has_node ha, rfl⟩
    obtain ⟨a, ha, rfl⟩ := hhas
    obtain ⟨hold, hka⟩ := Shape.has_filter.mp ha
    have hpath := hp.wired.children a ha
    rw [Shape.children_filter hka] at hpath
    refine ⟨_, h.wired.children a hold, ?_⟩
    rw [List.filter_map]
    exact hpath
  · refine ⟨(chains i).map addr, fun p hm => ?_, ⟨h.wired.header i, h.wired.chain i⟩, ?_, ?_, ?_⟩
    · obtain ⟨a, ha, rfl⟩ := List.mem_map.mp hm
      exact h.wired.isNode_iff.mpr ⟨a, h.wired.listed i a ha, rfl⟩
    · rw [hstays]
      exact ⟨hp.wired.header i, hp.wired.chain i⟩
    · have hlen := List.length_eq_length_filter_add (l := chains i) K
      rw [hgone, List.length_map, hp.wired.redundancy, h.wired.redundancy]
      omega
    · rw [hgone]
      exact hp.single i
  · have hlen := List.length_eq_length_filter_add (l := S.nodes) K
    have hleft : tree'.totalNodes = (S.nodes.filter K).length := hp.wired.total
    rw [h.wired.total]
    omega
  · refine ⟨(S.nodes.filter fun a => !K a).map addr, ?_, fun p => ?_, (List.length_map _).symm⟩
    · exact h.wired.map_nodup (fun a ha => S.has_node (List.mem_of_mem_filter ha))
        (h.wired.ok.nodup.filter _)
    · rw [h.wired.isNode_iff, List.mem_map]
      constructor
      · rintro ⟨a, ha, rfl⟩
        obtain ⟨ha, hk⟩ := List.mem_filter.mp ha
        exact ⟨⟨a, ha, rfl⟩, by simpa using hk⟩
      · rintro ⟨⟨a, ha, rfl⟩, hk⟩
        exact ⟨a, List.mem_filter.mpr ⟨ha, by simpa using hk⟩, rfl⟩

/-- `PruneTree` is right on every tree that `InsertPatternSortedly` makes. It compares the bound as
an `int`; one below 0 is as good as 0. -/
theorem pruneTree_right (h : InOrder maxItems ops) (e : Int) : ∃ tree created tree' deleted,
    insertRun maxItems ops = .ok (tree, created) ∧
      pruneTree tree e.toNat = .ok (tree', deleted) ∧ PruneRight tree tree' e deleted := by
  obtain ⟨⟨tree, created⟩, S, addr, chains, hrun, -, hgrown⟩ := insertRun_grown h
  obtain ⟨tree', deleted, hprune, hright⟩ := (hgrown (2 ^ 16) fun op hop =>
    (h.window op hop).2.le).prune_right e
  exact ⟨tree, created, tree', deleted, hrun, hprune, hright⟩

/-- {0, 1} in slide 3 and {0, 2} in slide 5. With the bound 4 the node of {0, 1} goes. -/
theorem pruneTree_right_two : ∃ tree created tree' deleted,
    insertRun 3 [⟨⟨1, [0, 1]⟩, 3⟩, ⟨⟨1, [0, 2]⟩, 5⟩] = .ok (tree, created) ∧
      pruneTree tree (4 : Int).toNat = .ok (tree', deleted) ∧ PruneRight tree tree' 4 deleted :=
  pruneTree_right ⟨by decide, by decide, by decide⟩ 4

end StreamMill.Swim
